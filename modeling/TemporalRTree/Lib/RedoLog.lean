import Mathlib.Data.List.GetD
import Mathlib.Tactic

/-!
# `Lib.RedoLog` — a paged file recovered from full-page images

A file is a list of pages; a block past its end reads as the zero page. A log record holds full images of
some blocks, and redoing it writes them back, extending the file where needed. Files are compared block by
block (`Same`), so trailing zero pages do not count.

`Logged pages log pages'` says that redoing `log` over `pages` gives `pages'`. It composes along a run
(`Logged.trans`), and a record of every block that changed is enough for one step (`Logged.record`).
-/

namespace RedoLog

variable {P : Type*} (zero : P)

/-- Write one image back. -/
def restore (pages : List P) (image : Nat × P) : List P :=
  if image.1 < pages.length then pages.set image.1 image.2
  else pages ++ List.replicate (image.1 - pages.length) zero ++ [image.2]

/-- Redo one record. -/
def redo (pages : List P) (images : List (Nat × P)) : List P := images.foldl (restore zero) pages

/-- Redo a log. -/
def replay (pages : List P) (log : List (List (Nat × P))) : List P := log.foldl (redo zero) pages

/-- The two files read the same at every block. -/
def Same (pages pages' : List P) : Prop := ∀ b, pages.getD b zero = pages'.getD b zero

variable {zero} {pages pages' pages'' : List P} {log log' : List (List (Nat × P))}

theorem getD_restore (image : Nat × P) (b : Nat) :
    (restore zero pages image).getD b zero = if b = image.1 then image.2 else pages.getD b zero := by
  unfold restore
  simp only [List.getD_eq_getElem?_getD]
  split
  · next h =>
    rw [List.getElem?_set]
    split
    · next he => rw [if_pos he.symm]; rfl
    · next he => rw [if_neg fun hb => he hb.symm]
  · next h =>
    -- past the end: the padding reads as the zero page, as it did before
    rcases Nat.lt_trichotomy b image.1 with hlt | rfl | hgt
    · rw [if_neg (Nat.ne_of_lt hlt), List.getElem?_append_left (by simp; omega), List.getElem?_append]
      split
      · rfl
      · next hb =>
        rw [List.getElem?_replicate, if_pos (by omega), List.getElem?_eq_none (Nat.le_of_not_lt hb)]
        rfl
    · rw [if_pos rfl, List.getElem?_append_right (by simp; omega)]
      simp only [List.length_append, List.length_replicate]
      rw [show image.1 - (pages.length + (image.1 - pages.length)) = 0 by omega]
      simp
    · rw [if_neg (Nat.ne_of_gt hgt), List.getElem?_eq_none (by simp; omega),
        List.getElem?_eq_none (by omega)]

theorem restore_of_lt {image : Nat × P} (h : image.1 < pages.length) :
    restore zero pages image = pages.set image.1 image.2 := if_pos h

/-- An image of the first block past the end. -/
theorem restore_next (q : P) : restore zero pages (pages.length, q) = pages ++ [q] := by
  simp [restore]

theorem replay_append : replay zero pages (log ++ log') = replay zero (replay zero pages log) log' :=
  List.foldl_append

/-- Redoing a record of blocks `bs` as they are in `f` writes these blocks and no others. -/
theorem getD_redo (bs : List Nat) (f : Nat → P) (b : Nat) :
    (redo zero pages (bs.map fun b => (b, f b))).getD b zero = if b ∈ bs then f b else pages.getD b zero := by
  induction bs generalizing pages with
  | nil => simp [redo]
  | cons c bs ih =>
      simp only [List.map_cons, redo, List.foldl_cons] at ih ⊢
      rw [ih, getD_restore]
      by_cases hb : b ∈ bs
      · simp [hb]
      · by_cases hc : b = c <;> simp [hb, hc]

theorem getD_redo_cases (images : List (Nat × P)) (b : Nat) :
    (∃ p, ∀ pages : List P, (redo zero pages images).getD b zero = p) ∨
      ∀ pages : List P, (redo zero pages images).getD b zero = pages.getD b zero := by
  induction images with
  | nil => exact Or.inr fun _ => rfl
  | cons image images ih =>
      rcases ih with ⟨p, hp⟩ | hid
      · exact Or.inl ⟨p, fun pages => hp _⟩
      · have hread : ∀ pages : List P, (redo zero pages (image :: images)).getD b zero =
            if b = image.1 then image.2 else pages.getD b zero := fun pages =>
          (hid (restore zero pages image)).trans (getD_restore image b)
        by_cases hb : b = image.1
        · exact Or.inl ⟨image.2, fun pages => by rw [hread, if_pos hb]⟩
        · exact Or.inr fun pages => by rw [hread, if_neg hb]

/-- **A log says what a block reads as, or leaves it alone**, whatever the pages it is redone over. -/
theorem getD_replay_cases (log : List (List (Nat × P))) (b : Nat) :
    (∃ p, ∀ pages : List P, (replay zero pages log).getD b zero = p) ∨
      ∀ pages : List P, (replay zero pages log).getD b zero = pages.getD b zero := by
  induction log with
  | nil => exact Or.inr fun _ => rfl
  | cons images log ih =>
      rcases ih with ⟨p, hp⟩ | hid
      · exact Or.inl ⟨p, fun pages => hp _⟩
      · rcases getD_redo_cases images b with ⟨p, hp⟩ | hid'
        · exact Or.inl ⟨p, fun pages => (hid _).trans (hp pages)⟩
        · exact Or.inr fun pages => (hid _).trans (hid' pages)

/-- Redoing a log does not see the difference between files that read the same. -/
theorem Same.replay (h : Same zero pages pages') (log : List (List (Nat × P))) :
    Same zero (replay zero pages log) (replay zero pages' log) := by
  intro b
  rcases getD_replay_cases log b with ⟨p, hp⟩ | hid
  · rw [hp, hp]
  · rw [hid, hid, h b]

theorem length_restore (image : Nat × P) : (restore zero pages image).length = max pages.length (image.1 + 1) := by
  unfold restore
  split
  · rw [List.length_set]
    omega
  · simp only [List.length_append, List.length_replicate, List.length_singleton]
    omega

/-- Redoing a log makes the file at least as long as the log asks for. -/
theorem length_replay (log : List (List (Nat × P))) :
    ∃ n, ∀ pages : List P, (RedoLog.replay zero pages log).length = max pages.length n := by
  have hredo : ∀ images : List (Nat × P), ∃ n, ∀ pages : List P,
      (RedoLog.redo zero pages images).length = max pages.length n := by
    intro images
    induction images with
    | nil => exact ⟨0, fun pages => (Nat.max_zero _).symm⟩
    | cons image images ih =>
        obtain ⟨n, hn⟩ := ih
        refine ⟨max (image.1 + 1) n, fun pages => ?_⟩
        show (RedoLog.redo zero (RedoLog.restore zero pages image) images).length = _
        rw [hn, length_restore, Nat.max_assoc]
  induction log with
  | nil => exact ⟨0, fun pages => (Nat.max_zero _).symm⟩
  | cons images log ih =>
      obtain ⟨n, hn⟩ := ih
      obtain ⟨m, hm⟩ := hredo images
      refine ⟨max m n, fun pages => ?_⟩
      show (RedoLog.replay zero (RedoLog.redo zero pages images) log).length = _
      rw [hn, hm, Nat.max_assoc]

theorem Same.eq_of_length (h : Same zero pages pages') (hlen : pages.length = pages'.length) : pages = pages' := by
  refine List.ext_getElem hlen fun b hb hb' => ?_
  have hread := h b
  rwa [List.getD_eq_getElem _ _ hb, List.getD_eq_getElem _ _ hb'] at hread

/-- A file that is extended by no more than the log asks for recovers as before. -/
theorem Same.replay_eq (h : Same zero pages pages') (hle : pages.length ≤ pages'.length)
    (hlog : pages'.length ≤ (RedoLog.replay zero pages log).length) :
    RedoLog.replay zero pages' log = RedoLog.replay zero pages log := by
  refine (Same.eq_of_length (h.replay log) ?_).symm
  obtain ⟨n, hn⟩ := length_replay log
  rw [hn] at hlog ⊢
  rw [hn]
  omega

/-- A file into which a block has been written as the log leaves it recovers as before. -/
theorem replay_set_self (b : Nat) :
    replay zero (pages.set b ((replay zero pages log).getD b zero)) log = replay zero pages log := by
  refine Same.eq_of_length (show Same zero _ _ from fun x => ?_) ?_
  · rcases getD_replay_cases log x with ⟨p, hp⟩ | hid
    · rw [hp, hp]
    · rw [hid, List.getD_eq_getElem?_getD, List.getElem?_set]
      split
      · next he =>
        subst he
        rw [hid]
        split
        · rfl
        · next hge => rw [Option.getD_none, List.getD_eq_default _ _ (Nat.le_of_not_lt hge)]
      · rw [hid, List.getD_eq_getElem?_getD]
  · obtain ⟨n, hn⟩ := length_replay log
    rw [hn, hn, List.length_set]

/-- Redoing a log leaves the blocks alone that no record names. -/
theorem getD_replay_of_notMem {b : Nat} (h : ∀ images ∈ log, ∀ im ∈ images, im.1 ≠ b) :
    (replay zero pages log).getD b zero = pages.getD b zero := by
  have hredo : ∀ (images : List (Nat × P)) (pages : List P), (∀ im ∈ images, im.1 ≠ b) →
      (redo zero pages images).getD b zero = pages.getD b zero := by
    intro images
    induction images with
    | nil => exact fun _ _ => rfl
    | cons im images ih =>
        intro pages h
        show (redo zero (restore zero pages im) images).getD b zero = _
        rw [ih _ fun im' him => h im' (List.mem_cons_of_mem _ him), getD_restore,
          if_neg (h im List.mem_cons_self).symm]
  induction log generalizing pages with
  | nil => rfl
  | cons images log ih =>
      show (replay zero (redo zero pages images) log).getD b zero = _
      rw [ih fun im him => h im (List.mem_cons_of_mem _ him), hredo images pages (h images List.mem_cons_self)]

/-- The prefixes of a log with one more record: those of the log, and the whole. -/
theorem forall_take_concat {R : List (List (Nat × P)) → Prop} (record : List (Nat × P)) :
    (∀ i, R ((log ++ [record]).take i)) ↔ (∀ i, R (log.take i)) ∧ R (log ++ [record]) := by
  constructor
  · intro h
    refine ⟨fun i => ?_, ?_⟩
    · rcases Nat.le_total i log.length with hi | hi
      · have hpre := h i
        rwa [List.take_append_of_le_length hi] at hpre
      · have hpre := h log.length
        rw [List.take_append_of_le_length (Nat.le_refl _), List.take_length] at hpre
        rwa [List.take_of_length_le hi]
    · have hall := h (log ++ [record]).length
      rwa [List.take_length] at hall
  · rintro ⟨h, hall⟩ i
    rcases Nat.lt_or_ge log.length i with hi | hi
    · rwa [List.take_of_length_le (by simpa using hi)]
    · rw [List.take_append_of_le_length hi]
      exact h i

/-- Redoing `log` over `pages` gives `pages'`. -/
def Logged (zero : P) (pages : List P) (log : List (List (Nat × P))) (pages' : List P) : Prop :=
  Same zero (replay zero pages log) pages'

theorem Logged.refl : Logged zero pages [] pages := fun _ => rfl

/-- **What two runs log one after the other restores what both did.** -/
theorem Logged.trans (h : Logged zero pages log pages') (h' : Logged zero pages' log' pages'') :
    Logged zero pages (log ++ log') pages'' := by
  intro b
  rw [RedoLog.replay, List.foldl_append]
  exact (h.replay log' b).trans (h' b)

/-- **A record of every block that changed, as it is after the change, restores the change.** -/
theorem Logged.record {images : List (Nat × P)} (himages : ∀ im ∈ images, im.2 = pages'.getD im.1 zero)
    (hrest : ∀ b, b ∉ images.map Prod.fst → pages'.getD b zero = pages.getD b zero) :
    Logged zero pages [images] pages' := by
  have h : images = (images.map Prod.fst).map fun b => (b, pages'.getD b zero) := by
    rw [List.map_map]
    exact (List.map_id _).symm.trans (List.map_congr_left fun im him => by
      rw [Function.comp_apply, ← himages im him]
      rfl)
  intro b
  show (RedoLog.redo zero pages images).getD b zero = _
  rw [h, getD_redo]
  split
  · rfl
  · next hb => exact (hrest b hb).symm

end RedoLog
