import TemporalRTree.Lib.Cursor

/-!
# `Lib.Pruning` — taking values out of a tree while it is walked

A collector rewrites the nodes of a tree one by one: it takes the dead values out of a leaf, and from an inner
node the kids it has found to be without contents (`Prunes`). Each such step leaves the tree one (`Prunes.forest`)
and thins out what is in it: nothing is added, and every live value stays in its place (`Prunes.leaves`).

A walk of the tree outlives the step if the node rewritten has lost no kid that the walk has passed
(`Prunes.walk`): its frames count the kids behind them, so a kid that goes missing there makes it skip one.

A collector that comes through the whole tree leaves its `survivors`, the blocks with a live value below them
(`mem_survivors`).
-/

namespace Layout

variable {B N V : Type*}

/-! ## Thinning out a list -/

/-- `xs'` is `xs` without some values that are not alive. -/
def Thins (alive : V → Bool) (xs xs' : List V) : Prop := xs'.Sublist xs ∧ xs'.filter alive = xs.filter alive

section Thins
variable {alive : V → Bool} {xs xs' ys ys' : List V}

theorem Thins.refl (xs : List V) : Thins alive xs xs := ⟨List.Sublist.refl _, rfl⟩

theorem Thins.trans {zs : List V} (h : Thins alive xs ys) (h' : Thins alive ys zs) : Thins alive xs zs :=
  ⟨h'.1.trans h.1, h'.2.trans h.2⟩

theorem Thins.filter (xs : List V) : Thins alive xs (xs.filter alive) :=
  ⟨List.filter_sublist, by rw [List.filter_filter]; simp⟩

theorem Thins.append (h : Thins alive xs xs') (h' : Thins alive ys ys') :
    Thins alive (xs ++ ys) (xs' ++ ys') :=
  ⟨h.1.append h'.1, by rw [List.filter_append, List.filter_append, h.2, h'.2]⟩

theorem Thins.flatMap {A : Type*} {f g : A → List V} {cs : List A} (h : ∀ c ∈ cs, Thins alive (f c) (g c)) :
    Thins alive (cs.flatMap f) (cs.flatMap g) := by
  induction cs with
  | nil => exact .refl _
  | cons c cs ih =>
      rw [List.flatMap_cons, List.flatMap_cons]
      exact (h c List.mem_cons_self).append (ih fun c' hc' => h c' (List.mem_cons_of_mem _ hc'))

/-- Seen through a filter. -/
theorem Thins.restrict (h : Thins alive xs xs') (p : V → Bool) : Thins alive (xs.filter p) (xs'.filter p) := by
  refine ⟨h.1.filter p, ?_⟩
  rw [List.filter_comm, List.filter_comm _ p, h.2]

end Thins

/-! ## Kids without contents -/

/-- `cs'` is `cs` without some trees that have no contents. -/
inductive Drops (L : Layout B N V) (st : B → N) (l : Nat) : List B → List B → Prop where
  | nil : Drops L st l [] []
  | keep {c : B} {cs cs' : List B} (h : Drops L st l cs cs') : Drops L st l (c :: cs) (c :: cs')
  | drop {c : B} {cs cs' : List B} (hc : L.leaves st l c = []) (h : Drops L st l cs cs') :
      Drops L st l (c :: cs) cs'

variable {L : Layout B N V} {P : Nat → N → Prop} {alive : V → Bool} {st st' : B → N} {l m : Nat} {b x : B}
  {cs cs' : List B}

theorem Drops.append {ds ds' : List B} (h : L.Drops st l cs cs') (h' : L.Drops st l ds ds') :
    L.Drops st l (cs ++ ds) (cs' ++ ds') := by
  induction h with
  | nil => exact h'
  | keep _ ih => exact .keep ih
  | drop hc _ ih => exact .drop hc ih

theorem Drops.sublist (h : L.Drops st l cs cs') : cs'.Sublist cs := by
  induction h with
  | nil => exact List.Sublist.refl _
  | keep _ ih => exact ih.cons_cons _
  | drop _ _ ih => exact ih.cons _

theorem Drops.forestLeaves_eq (h : L.Drops st l cs cs') : L.forestLeaves st l cs' = L.forestLeaves st l cs := by
  induction h with
  | nil => rfl
  | keep _ ih => rw [forestLeaves_cons, forestLeaves_cons, ih]
  | drop hc _ ih => rw [forestLeaves_cons, hc, List.nil_append, ih]

/-- What is ahead of a position that nothing was dropped before. -/
theorem Drops.forestLeaves_drop {pos : Nat} (h : L.Drops st l cs cs') (htake : cs'.take pos = cs.take pos) :
    L.forestLeaves st l (cs'.drop pos) = L.forestLeaves st l (cs.drop pos) := by
  have hall := h.forestLeaves_eq
  rw [← List.take_append_drop pos cs', ← List.take_append_drop pos cs, forestLeaves_append, forestLeaves_append,
    htake] at hall
  exact List.append_cancel_left hall

/-! ## Rewriting one node -/

/-- The node at `b`, of level `m`, was rewritten: the dead values of a leaf are gone, or kids without contents of
    an inner node. -/
structure Prunes (L : Layout B N V) (P : Nat → N → Prop) (alive : V → Bool) (st st' : B → N) (m : Nat) (b : B) :
    Prop where
  frame : ∀ x, x ≠ b → st' x = st x
  /-- The condition on nodes tells levels apart. -/
  level : ∀ l, P l (st b) → l = m
  node : P m (st' b)
  leaf : m = 0 → L.vals (st' b) = (L.vals (st b)).filter alive
  inner : ∀ l, m = l + 1 → L.Drops st l (L.kids (st b)) (L.kids (st' b))

section Prunes
variable (h : L.Prunes P alive st st' m b)
include h

/-- **Nothing is added to a tree, and nothing live is lost.** -/
theorem Prunes.leaves : ∀ {l : Nat} {x : B}, L.Holds P st l x → Thins alive (L.leaves st l x) (L.leaves st' l x)
  | 0, x, hx => by
      by_cases he : x = b
      · subst he
        rw [leaves_zero, leaves_zero, h.leaf (h.level 0 hx).symm]
        exact .filter _
      · rw [leaves_zero, leaves_zero, h.frame x he]
        exact .refl _
  | l + 1, x, hx => by
      by_cases he : x = b
      · subst he
        have hdrops := h.inner l (h.level (l + 1) hx.1).symm
        rw [leaves_succ, leaves_succ, ← hdrops.forestLeaves_eq]
        exact Thins.flatMap fun c hc => Prunes.leaves (hx.2 c (hdrops.sublist.subset hc))
      · rw [leaves_succ, leaves_succ, h.frame x he]
        exact Thins.flatMap fun c hc => Prunes.leaves (hx.2 c hc)

theorem Prunes.holds : ∀ {l : Nat} {x : B}, L.Holds P st l x → L.Holds P st' l x
  | 0, x, hx => by
      by_cases he : x = b
      · subst he
        rw [Holds, h.level 0 hx]
        exact h.node
      · rw [Holds, h.frame x he]
        exact hx
  | l + 1, x, hx => by
      by_cases he : x = b
      · subst he
        have hlevel := h.level (l + 1) hx.1
        refine ⟨hlevel ▸ h.node, fun c hc => Prunes.holds (hx.2 c ?_)⟩
        exact (h.inner l hlevel.symm).sublist.subset hc
      · refine ⟨by rw [h.frame x he]; exact hx.1, fun c hc => Prunes.holds (hx.2 c ?_)⟩
        rwa [h.frame x he] at hc

theorem Prunes.blocks : ∀ {l : Nat} {x : B}, L.Holds P st l x → (L.blocks st' l x).Sublist (L.blocks st l x)
  | 0, _, _ => List.Sublist.refl _
  | l + 1, x, hx => by
      have hkids : (L.kids (st' x)).Sublist (L.kids (st x)) := by
        by_cases he : x = b
        · subst he
          exact (h.inner l (h.level (l + 1) hx.1).symm).sublist
        · rw [h.frame x he]
      have hsub : ∀ cs' : List B, (∀ c ∈ cs', c ∈ L.kids (st x)) →
          (L.forestBlocks st' l cs').Sublist (L.forestBlocks st l cs') := by
        intro cs' hcs
        induction cs' with
        | nil => exact List.Sublist.refl _
        | cons c cs' ih =>
            rw [forestBlocks_cons, forestBlocks_cons]
            exact (Prunes.blocks (hx.2 c (hcs c List.mem_cons_self))).append
              (ih fun c' hc' => hcs c' (List.mem_cons_of_mem _ hc'))
      rw [blocks_succ, blocks_succ]
      exact ((hsub _ fun c hc => hkids.subset hc).trans (hkids.flatMap _)).cons_cons x

/-- The tree stays one. -/
theorem Prunes.forest (hf : L.Forest P st l [x]) : L.Forest P st' l [x] where
  holds c hc := h.holds (hf.holds c hc)
  nodup := by
    have hx := hf.holds x (List.mem_singleton.mpr rfl)
    have hnd := hf.nodup
    rw [forestBlocks_singleton] at hnd ⊢
    exact hnd.sublist (h.blocks hx)

/-- Trees that were dropped stay without contents. -/
theorem Prunes.drops (hd : L.Drops st l cs cs') (hcs : ∀ c ∈ cs, L.Holds P st l c) : L.Drops st' l cs cs' := by
  induction hd with
  | nil => exact .nil
  | keep _ ih => exact .keep (ih fun c hc => hcs c (List.mem_cons_of_mem _ hc))
  | @drop c cs cs' hc _ ih =>
      refine .drop ?_ (ih fun c hc => hcs c (List.mem_cons_of_mem _ hc))
      have hsub := (h.leaves (hcs c List.mem_cons_self)).1
      rw [hc] at hsub
      exact List.eq_nil_of_sublist_nil hsub

/-! ## Under a walk -/

/-- A frame at an inner node, if no kid it has passed is gone. -/
theorem Prunes.frame_rest (pos : Nat) (hx : L.Holds P st (l + 1) x)
    (hpassed : x = b → (L.kids (st' b)).take pos = (L.kids (st b)).take pos) :
    (L.kids (st' x)).take pos = (L.kids (st x)).take pos ∧
      Thins alive (L.restLeaves st ⟨x, l + 1, pos⟩) (L.restLeaves st' ⟨x, l + 1, pos⟩) := by
  by_cases he : x = b
  · subst he
    have hdrops := h.inner l (h.level (l + 1) hx.1).symm
    refine ⟨hpassed rfl, ?_⟩
    show Thins alive (L.forestLeaves st l _) (L.forestLeaves st' l _)
    rw [← hdrops.forestLeaves_drop (hpassed rfl)]
    exact Thins.flatMap fun c hc => h.leaves (hx.2 c (hdrops.sublist.subset (List.mem_of_mem_drop hc)))
  · refine ⟨by rw [h.frame x he], ?_⟩
    simp only [restLeaves, h.frame x he]
    exact Thins.flatMap fun c hc => h.leaves (hx.2 c (List.mem_of_mem_drop hc))

/-- **A walk outlives the step if the node rewritten has lost no kid the walk has passed.** It may stand at
    leaves only with all their values ahead. -/
theorem Prunes.walk {stack : List (Frame B)} (hw : L.Walk st l x stack) (hx : L.Holds P st l x)
    (hleaf : ∀ f ∈ stack, f.level = 0 → f.pos = 0)
    (hpassed : ∀ f ∈ stack, f.block = b → f.level ≠ 0 →
      (L.kids (st' b)).take f.pos = (L.kids (st b)).take f.pos) :
    L.Walk st' l x stack ∧ Thins alive (L.stackLeaves st stack) (L.stackLeaves st' stack) := by
  induction hw with
  | @leaf x pos =>
      obtain rfl : pos = 0 := hleaf _ (List.mem_singleton.mpr rfl) rfl
      refine ⟨.leaf, ?_⟩
      simpa [restLeaves] using h.leaves hx
  | @inner l x pos hle =>
      obtain ⟨htake, hthins⟩ := h.frame_rest pos hx fun he =>
        hpassed _ (List.mem_singleton.mpr rfl) he (Nat.succ_ne_zero l)
      have hlen := congrArg List.length htake
      rw [List.length_take, List.length_take] at hlen
      refine ⟨.inner (by omega), ?_⟩
      simpa using hthins
  | @deeper l x c pos stack hc _ ih =>
      have hlast : (⟨x, l + 1, pos + 1⟩ : Frame B) ∈ stack ++ [⟨x, l + 1, pos + 1⟩] := by simp
      obtain ⟨htake, hthins⟩ := h.frame_rest (pos + 1) hx fun he => hpassed _ hlast he (Nat.succ_ne_zero l)
      obtain ⟨hw', hthins'⟩ := ih (hx.2 c (List.mem_of_getElem? hc))
        (fun f hf => hleaf f (List.mem_append_left _ hf)) (fun f hf => hpassed f (List.mem_append_left _ hf))
      have hc' : (L.kids (st' x))[pos]? = some c := by
        have hget := congrArg (·[pos]?) htake
        simpa [List.getElem?_take, hc] using hget
      refine ⟨.deeper hc' hw', ?_⟩
      rw [stackLeaves_append, stackLeaves_append]
      exact hthins'.append (by simpa using hthins)

end Prunes

/-! ## What is left of a tree -/

/-- The blocks that are left of the tree of level `l` at `b` once every tree in it without a live value is cut off. -/
def survivors (L : Layout B N V) (alive : V → Bool) (st : B → N) : Nat → B → List B
  | 0, b => if (L.vals (st b)).any alive then [b] else []
  | l + 1, b =>
      if (L.leaves st (l + 1) b).any alive then b :: (L.kids (st b)).flatMap (survivors L alive st l) else []

section Survivors
variable {L : Layout B N V} {alive : V → Bool} {st st' : B → N} {l m : Nat} {b c x : B}

/-- The contents of a tree inside a tree. -/
theorem Below.leaves_subset (h : L.Below st m c l b) : L.leaves st m c ⊆ L.leaves st l b := by
  induction h with
  | here => exact List.Subset.refl _
  | down hk _ ih => exact fun v hv => mem_forestLeaves.mpr ⟨_, hk, ih hv⟩

theorem survivors_eq_nil (h : (L.leaves st l b).any alive = false) : L.survivors alive st l b = [] := by
  have hnot := Bool.eq_false_iff.mp h
  cases l with
  | zero => exact if_neg hnot
  | succ l => exact if_neg hnot

theorem survivors_congr : ∀ {l : Nat} {b : B}, (∀ x ∈ L.blocks st l b, st' x = st x) →
    L.survivors alive st' l b = L.survivors alive st l b
  | 0, b, h => by rw [survivors, survivors, h b self_mem_blocks]
  | l + 1, b, h => by
      have hkids : (L.kids (st b)).flatMap (L.survivors alive st' l) =
          (L.kids (st b)).flatMap (L.survivors alive st l) := by
        refine List.flatMap_congr fun k hk => survivors_congr fun x hx => h x ?_
        exact List.mem_cons_of_mem _ (blocks_subset_forest hk hx)
      rw [survivors, survivors, leaves_congr h, h b self_mem_blocks, hkids]

/-- **What is left are the blocks with a live value below them.** -/
theorem mem_survivors : x ∈ L.survivors alive st l b ↔
    ∃ m, L.Below st m x l b ∧ (L.leaves st m x).any alive = true := by
  constructor
  · intro hx
    induction l generalizing b with
    | zero =>
        rw [survivors, List.mem_ite_nil_right] at hx
        obtain ⟨halive, hx⟩ := hx
        rw [List.mem_singleton.mp hx]
        exact ⟨0, .here, halive⟩
    | succ l ih =>
        rw [survivors, List.mem_ite_nil_right] at hx
        obtain ⟨halive, hx⟩ := hx
        rcases List.mem_cons.mp hx with rfl | hx
        · exact ⟨l + 1, .here, halive⟩
        · obtain ⟨k, hk, hx⟩ := List.mem_flatMap.mp hx
          obtain ⟨m, hbel, hm⟩ := ih hx
          exact ⟨m, .down hk hbel, hm⟩
  · rintro ⟨m, hbel, hm⟩
    -- along the way down every tree has the live value
    induction hbel with
    | here =>
        cases m with
        | zero =>
            rw [leaves_zero] at hm
            rw [survivors, if_pos hm]
            exact List.mem_cons_self
        | succ m =>
            rw [survivors, if_pos hm]
            exact List.mem_cons_self
    | @down l b k hk hbel ih =>
        have halive : (L.leaves st (l + 1) b).any alive = true := by
          obtain ⟨v, hv, hlive⟩ := List.any_eq_true.mp hm
          exact List.any_eq_true.mpr ⟨v, (Below.down hk hbel).leaves_subset hv, hlive⟩
        rw [survivors, if_pos halive]
        exact List.mem_cons_of_mem _ (List.mem_flatMap.mpr ⟨k, hk, ih⟩)

end Survivors

end Layout
