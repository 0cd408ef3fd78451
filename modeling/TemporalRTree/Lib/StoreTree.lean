import Mathlib.Data.List.Perm.Subperm
import Mathlib.Data.List.Nodup
import Mathlib.Data.Multiset.Basic
import Mathlib.Data.Set.Basic
import Mathlib.Tactic

/-!
# `Lib.StoreTree` — trees of uniform depth laid out in a block store

A store is a function `st : B → N` from block names to nodes. A `Layout` says which blocks a node points to
(`kids`) and which values a leaf node holds (`vals`). A tree of level `l` is then just a block: its pages are
`blocks st l b`, its contents `leaves st l b`, and a per-node condition `P` holds throughout it when
`Holds P st l b`. Nothing is assumed about the store outside a tree, so every fact about a tree only needs
the store on the tree's own blocks (`blocks_congr`, `leaves_congr`, `holds_congr`): this is the frame rule.

An operation on a store rewrites some trees in place and allocates new blocks. `Update` is what such an
operation guarantees about a forest `cs` that becomes `cs'`; it composes sideways with untouched trees
(`Update.append`) and upwards through a parent that is rewritten, split over new blocks or dropped
(`Update.upTops`). Parents may drop kids but not invent any (`<+~`).

`Below` locates a tree inside a larger one; rewriting it in place rewrites the larger one in place
(`Update.lift`).
-/

/-- How nodes of type `N` point to blocks `B` and hold values `V`. -/
structure Layout (B N V : Type*) where
  kids : N → List B
  vals : N → List V

namespace Layout

variable {B N V : Type*} (L : Layout B N V)

/-! ## Trees -/

/-- The blocks of the tree of level `l` at `b`, in preorder. -/
def blocks (st : B → N) : Nat → B → List B
  | 0, b => [b]
  | l + 1, b => b :: (L.kids (st b)).flatMap (blocks st l)

/-- The contents of the tree of level `l` at `b`, left to right. -/
def leaves (st : B → N) : Nat → B → List V
  | 0, b => L.vals (st b)
  | l + 1, b => (L.kids (st b)).flatMap (leaves st l)

/-- `P` holds at every node of the tree, with the node's level. -/
def Holds (P : Nat → N → Prop) (st : B → N) : Nat → B → Prop
  | 0, b => P 0 (st b)
  | l + 1, b => P (l + 1) (st b) ∧ ∀ c ∈ L.kids (st b), Holds P st l c

/-- The blocks of a forest. -/
def forestBlocks (st : B → N) (l : Nat) (cs : List B) : List B := cs.flatMap (L.blocks st l)

/-- The contents of a forest. -/
def forestLeaves (st : B → N) (l : Nat) (cs : List B) : List V := cs.flatMap (L.leaves st l)

variable {L} {P : Nat → N → Prop} {st st' st'' : B → N} {l : Nat} {b c r : B} {cs cs' rest : List B}
variable {alloc alloc' alloc'' : Set B}

@[simp] theorem blocks_zero : L.blocks st 0 b = [b] := rfl

theorem blocks_succ : L.blocks st (l + 1) b = b :: L.forestBlocks st l (L.kids (st b)) := rfl

@[simp] theorem leaves_zero : L.leaves st 0 b = L.vals (st b) := rfl

theorem leaves_succ : L.leaves st (l + 1) b = L.forestLeaves st l (L.kids (st b)) := rfl

@[simp] theorem forestBlocks_nil : L.forestBlocks st l [] = [] := rfl

@[simp] theorem forestBlocks_cons :
    L.forestBlocks st l (c :: cs) = L.blocks st l c ++ L.forestBlocks st l cs := rfl

@[simp] theorem forestBlocks_append :
    L.forestBlocks st l (cs ++ cs') = L.forestBlocks st l cs ++ L.forestBlocks st l cs' :=
  List.flatMap_append

@[simp] theorem forestLeaves_nil : L.forestLeaves st l [] = [] := rfl

@[simp] theorem forestLeaves_cons :
    L.forestLeaves st l (c :: cs) = L.leaves st l c ++ L.forestLeaves st l cs := rfl

@[simp] theorem forestLeaves_append :
    L.forestLeaves st l (cs ++ cs') = L.forestLeaves st l cs ++ L.forestLeaves st l cs' :=
  List.flatMap_append

@[simp] theorem forestBlocks_zero : L.forestBlocks st 0 cs = cs := by
  show cs.flatMap (fun c => [c]) = cs
  simp

@[simp] theorem forestLeaves_zero : L.forestLeaves st 0 cs = cs.flatMap fun c => L.vals (st c) := rfl

theorem forestBlocks_singleton : L.forestBlocks st l [b] = L.blocks st l b := List.flatMap_singleton _ _

theorem forestLeaves_singleton : L.forestLeaves st l [b] = L.leaves st l b := List.flatMap_singleton _ _

theorem mem_forestBlocks {x : B} : x ∈ L.forestBlocks st l cs ↔ ∃ c ∈ cs, x ∈ L.blocks st l c :=
  List.mem_flatMap

theorem mem_forestLeaves {v : V} : v ∈ L.forestLeaves st l cs ↔ ∃ c ∈ cs, v ∈ L.leaves st l c :=
  List.mem_flatMap

theorem self_mem_blocks : ∀ {l : Nat}, b ∈ L.blocks st l b
  | 0 => List.mem_singleton.mpr rfl
  | _ + 1 => List.mem_cons_self

theorem blocks_subset_forest (hc : c ∈ cs) : L.blocks st l c ⊆ L.forestBlocks st l cs :=
  fun _ hx => mem_forestBlocks.mpr ⟨c, hc, hx⟩

/-- The node condition holds at the top of a tree. -/
theorem Holds.node : ∀ {l : Nat}, L.Holds P st l b → P l (st b)
  | 0, h => h
  | _ + 1, h => h.1

/-- A weaker condition holds too. -/
theorem Holds.mono {Q : Nat → N → Prop} (hPQ : ∀ l n, P l n → Q l n) :
    ∀ {l : Nat} {b : B}, L.Holds P st l b → L.Holds Q st l b
  | 0, _, h => hPQ 0 _ h
  | l + 1, _, h => ⟨hPQ (l + 1) _ h.1, fun c hc => (h.2 c hc).mono hPQ⟩

/-- A condition on nodes alone, read off at any block of a tree. -/
theorem Holds.of_mem {Q : N → Prop} : ∀ {l : Nat} {b x : B}, L.Holds (fun _ => Q) st l b →
    x ∈ L.blocks st l b → Q (st x)
  | 0, _, _, h, hx => List.mem_singleton.mp hx ▸ h
  | _ + 1, _, _, h, hx => by
      rcases List.mem_cons.mp hx with rfl | hx
      · exact h.1
      · obtain ⟨c, hc, hx⟩ := mem_forestBlocks.mp hx
        exact (h.2 c hc).of_mem hx

/-! ## The frame rule -/

/-- Stores that agree on a tree's blocks have the same tree there. -/
theorem blocks_congr : ∀ {l : Nat} {b : B}, (∀ x ∈ L.blocks st l b, st' x = st x) →
    L.blocks st' l b = L.blocks st l b
  | 0, _, _ => rfl
  | l + 1, b, h => by
      have hb : st' b = st b := h b self_mem_blocks
      rw [blocks_succ, blocks_succ, hb]
      congr 1
      refine List.flatMap_congr fun c hc => blocks_congr fun x hx => h x ?_
      exact List.mem_cons_of_mem _ (blocks_subset_forest hc hx)

theorem leaves_congr : ∀ {l : Nat} {b : B}, (∀ x ∈ L.blocks st l b, st' x = st x) →
    L.leaves st' l b = L.leaves st l b
  | 0, b, h => by rw [leaves_zero, leaves_zero, h b self_mem_blocks]
  | l + 1, b, h => by
      have hb : st' b = st b := h b self_mem_blocks
      rw [leaves_succ, leaves_succ, hb]
      refine List.flatMap_congr fun c hc => leaves_congr fun x hx => h x ?_
      exact List.mem_cons_of_mem _ (blocks_subset_forest hc hx)

theorem holds_congr : ∀ {l : Nat} {b : B}, (∀ x ∈ L.blocks st l b, st' x = st x) →
    L.Holds P st l b → L.Holds P st' l b
  | 0, b, h, hp => by
      rw [Holds, h b self_mem_blocks]
      exact hp
  | l + 1, b, h, hp => by
      have hb : st' b = st b := h b self_mem_blocks
      refine ⟨hb ▸ hp.1, fun c hc => ?_⟩
      rw [hb] at hc
      refine holds_congr (fun x hx => h x ?_) (hp.2 c hc)
      exact List.mem_cons_of_mem _ (blocks_subset_forest hc hx)

theorem forestBlocks_congr (h : ∀ x ∈ L.forestBlocks st l cs, st' x = st x) :
    L.forestBlocks st' l cs = L.forestBlocks st l cs :=
  List.flatMap_congr fun _ hc => blocks_congr fun x hx => h x (blocks_subset_forest hc hx)

theorem forestLeaves_congr (h : ∀ x ∈ L.forestBlocks st l cs, st' x = st x) :
    L.forestLeaves st' l cs = L.forestLeaves st l cs :=
  List.flatMap_congr fun _ hc => leaves_congr fun x hx => h x (blocks_subset_forest hc hx)

/-! ## Relabelling

Stores that differ in neither kids nor values have the same trees. -/

section Relabel
variable (hkids : ∀ x, L.kids (st' x) = L.kids (st x))
include hkids

theorem blocks_relabel : ∀ {l : Nat} {b : B}, L.blocks st' l b = L.blocks st l b
  | 0, _ => rfl
  | l + 1, b => by
      rw [blocks_succ, blocks_succ, hkids]
      exact congrArg (b :: ·) (List.flatMap_congr fun _ _ => blocks_relabel)

theorem leaves_relabel (hvals : ∀ x, L.vals (st' x) = L.vals (st x)) :
    ∀ {l : Nat} {b : B}, L.leaves st' l b = L.leaves st l b
  | 0, b => hvals b
  | l + 1, b => by
      rw [leaves_succ, leaves_succ, hkids]
      exact List.flatMap_congr fun _ _ => leaves_relabel hvals

theorem holds_relabel (hP : ∀ l x, P l (st x) → P l (st' x)) :
    ∀ {l : Nat} {b : B}, L.Holds P st l b → L.Holds P st' l b
  | 0, b, h => hP 0 b h
  | l + 1, b, h => ⟨hP (l + 1) b h.1, fun c hc => holds_relabel hP (h.2 c (by rwa [hkids] at hc))⟩

end Relabel

/-! ## Forests up to order -/

theorem forestBlocks_subperm (h : cs'.Subperm cs) :
    (L.forestBlocks st l cs').Subperm (L.forestBlocks st l cs) := by
  obtain ⟨ds, hp, hs⟩ := h
  exact ((hp.flatMap_right _).symm.subperm).trans (hs.flatMap _).subperm

theorem forestLeaves_subperm (h : cs'.Subperm cs) :
    (L.forestLeaves st l cs').Subperm (L.forestLeaves st l cs) := by
  obtain ⟨ds, hp, hs⟩ := h
  exact ((hp.flatMap_right _).symm.subperm).trans (hs.flatMap _).subperm

theorem forestLeaves_perm (h : cs'.Perm cs) :
    (L.forestLeaves st l cs').Perm (L.forestLeaves st l cs) := h.flatMap_right _

/-- A tree in which every node has kids and values has leaf values. -/
theorem leaves_ne_nil : ∀ {l : Nat} {b : B}, (∀ x ∈ L.blocks st l b, L.kids (st x) ≠ [] ∧ L.vals (st x) ≠ []) →
    L.leaves st l b ≠ []
  | 0, b, h => (h b self_mem_blocks).2
  | l + 1, b, h => by
      obtain ⟨c, hc⟩ := List.exists_mem_of_ne_nil _ (h b self_mem_blocks).1
      have hkid : L.leaves st l c ≠ [] := leaves_ne_nil fun x hx =>
        h x (List.mem_cons_of_mem _ (blocks_subset_forest hc hx))
      obtain ⟨v, hv⟩ := List.exists_mem_of_ne_nil _ hkid
      exact List.ne_nil_of_mem (mem_forestLeaves.mpr ⟨c, hc, hv⟩)

/-- A tree fewer is a leaf value fewer. -/
theorem forestLeaves_length_lt (h : cs'.Subperm cs) (hlt : cs'.length < cs.length)
    (hne : ∀ c ∈ cs, L.leaves st l c ≠ []) :
    (L.forestLeaves st l cs').length < (L.forestLeaves st l cs).length := by
  -- along a sublist, each tree left out has a value
  have hsub : ∀ {ds es : List B}, ds.Sublist es → (∀ c ∈ es, L.leaves st l c ≠ []) →
      (L.forestLeaves st l ds).length + es.length ≤ (L.forestLeaves st l es).length + ds.length := by
    intro ds es hs
    induction hs with
    | slnil => simp
    | @cons ds es c hs ih =>
        intro hne
        have hc := List.length_pos_iff.mpr (hne c List.mem_cons_self)
        have hrest := ih fun c hc => hne c (List.mem_cons_of_mem _ hc)
        rw [forestLeaves_cons, List.length_append, List.length_cons]
        omega
    | @cons_cons ds es c hs ih =>
        intro hne
        have hrest := ih fun c hc => hne c (List.mem_cons_of_mem _ hc)
        rw [forestLeaves_cons, forestLeaves_cons, List.length_append, List.length_append, List.length_cons,
          List.length_cons]
        omega
  obtain ⟨ds, hp, hs⟩ := h
  have hle := hsub hs hne
  rw [(forestLeaves_perm hp).length_eq, hp.length_eq] at hle
  omega

/-- A tree whose inner nodes all have kids has more blocks than its level. -/
theorem Holds.level_lt_length (hne : ∀ l n, P (l + 1) n → L.kids n ≠ []) :
    ∀ {l : Nat} {b : B}, L.Holds P st l b → l < (L.blocks st l b).length
  | 0, _, _ => Nat.zero_lt_one
  | l + 1, b, h => by
      obtain ⟨c, hc⟩ := List.exists_mem_of_ne_nil _ (hne l _ h.1)
      have hlt := level_lt_length hne (h.2 c hc)
      have hle : (L.forestBlocks st l [c]).Subperm (L.forestBlocks st l (L.kids (st b))) :=
        forestBlocks_subperm (List.singleton_subperm_iff.mpr hc)
      have := hle.length_le
      simp only [forestBlocks_cons, forestBlocks_nil, List.append_nil] at this
      rw [blocks_succ, List.length_cons]
      omega

/-- A forest: `P` holds in every tree and no block is used twice. -/
structure Forest (L : Layout B N V) (P : Nat → N → Prop) (st : B → N) (l : Nat) (cs : List B) : Prop where
  holds : ∀ c ∈ cs, L.Holds P st l c
  nodup : (L.forestBlocks st l cs).Nodup

theorem Forest.subperm (h : L.Forest P st l cs) (hs : cs'.Subperm cs) : L.Forest P st l cs' where
  holds c hc := h.holds c (hs.subset hc)
  nodup := by
    obtain ⟨ds, hp, hds⟩ : (L.forestBlocks st l cs').Subperm (L.forestBlocks st l cs) :=
      forestBlocks_subperm hs
    exact hp.nodup_iff.mp (h.nodup.sublist hds)

/-- A forest does not see changes outside its blocks. -/
theorem Forest.congr (h : L.Forest P st l cs) (hst : ∀ x ∈ L.forestBlocks st l cs, st' x = st x) :
    L.Forest P st' l cs where
  holds c hc := holds_congr (fun x hx => hst x (blocks_subset_forest hc hx)) (h.holds c hc)
  nodup := by rw [forestBlocks_congr hst]; exact h.nodup

theorem Forest.relabel (h : L.Forest P st l cs) (hkids : ∀ x, L.kids (st' x) = L.kids (st x))
    (hP : ∀ l x, P l (st x) → P l (st' x)) : L.Forest P st' l cs where
  holds c hc := holds_relabel hkids hP (h.holds c hc)
  nodup := by
    rw [forestBlocks, List.flatMap_congr fun _ _ => blocks_relabel hkids]
    exact h.nodup

/-- The kids of a tree's top node are a forest that avoids the top block. -/
theorem Forest.kids (h : L.Forest P st (l + 1) [b]) :
    P (l + 1) (st b) ∧ L.Forest P st l (L.kids (st b)) ∧ b ∉ L.forestBlocks st l (L.kids (st b)) := by
  have hh := h.holds b (by simp)
  have hn := h.nodup
  simp only [forestBlocks_cons, forestBlocks_nil, List.append_nil, blocks_succ, List.nodup_cons] at hn
  exact ⟨hh.1, ⟨hh.2, hn.2⟩, hn.1⟩

/-! ## A tree with one kid rewritten -/

section OneKid
variable (hf : L.Forest P st (l + 1) [b]) (hrest : (c :: rest).Perm (L.kids (st b)))
  (hframe : ∀ x ∈ L.forestBlocks st l rest, x ∉ L.blocks st l c → st' x = st x)
include hf hrest hframe

/-- The trees beside the rewritten one hold what they held. -/
theorem Forest.leaves_beside : L.forestLeaves st' l rest = L.forestLeaves st l rest := by
  refine forestLeaves_congr fun x hx => hframe x hx fun hc => ?_
  have hn := (hf.kids.2.1.subperm hrest.subperm).nodup
  rw [forestBlocks_cons, List.nodup_append] at hn
  exact hn.2.2 x hc x hx rfl

/-- **A tree whose top node still has the same kids keeps its contents exactly if the rewritten kid does.** -/
theorem Forest.leaves_le_iff (hkids : (L.kids (st' b)).Perm (L.kids (st b))) :
    (L.leaves st (l + 1) b : Multiset V) ≤ L.leaves st' (l + 1) b ↔
      (L.leaves st l c : Multiset V) ≤ L.leaves st' l c := by
  have hbefore : (L.leaves st (l + 1) b).Perm (L.leaves st l c ++ L.forestLeaves st l rest) :=
    forestLeaves_perm hrest.symm
  have hafter : (L.leaves st' (l + 1) b).Perm (L.leaves st' l c ++ L.forestLeaves st l rest) := by
    rw [← hf.leaves_beside hrest hframe]
    exact forestLeaves_perm (hkids.trans hrest.symm)
  rw [Multiset.coe_eq_coe.mpr hbefore, Multiset.coe_eq_coe.mpr hafter, ← Multiset.coe_add,
    ← Multiset.coe_add]
  exact Multiset.add_le_add_iff_right

/-- A tree whose top node has dropped the kid keeps its contents exactly if the kid had none. -/
theorem Forest.leaves_le_iff_of_drop (hkids : (L.kids (st' b)).Perm rest) :
    (L.leaves st (l + 1) b : Multiset V) ≤ L.leaves st' (l + 1) b ↔ L.leaves st l c = [] := by
  have hbefore : (L.leaves st (l + 1) b).Perm (L.leaves st l c ++ L.forestLeaves st l rest) :=
    forestLeaves_perm hrest.symm
  have hafter : (L.leaves st' (l + 1) b).Perm (L.forestLeaves st l rest) := by
    rw [← hf.leaves_beside hrest hframe]
    exact forestLeaves_perm hkids
  rw [Multiset.coe_eq_coe.mpr hbefore, Multiset.coe_eq_coe.mpr hafter, Multiset.coe_le]
  constructor
  · intro h
    have := h.length_le
    rw [List.length_append] at this
    exact List.eq_nil_of_length_eq_zero (by omega)
  · intro h
    rw [h, List.nil_append]

end OneKid

/-! ## Updates -/

/-- The store went from `st` to `st'`, the allocated blocks from `alloc` to `alloc'`, and the forest `cs`
    became `cs'`: nothing allocated outside `cs` changed, and `cs'` is a forest on blocks of `cs` and newly
    allocated ones. -/
structure Update (L : Layout B N V) (P : Nat → N → Prop) (alloc alloc' : Set B) (st st' : B → N)
    (l : Nat) (cs cs' : List B) : Prop where
  alloc_le : alloc ⊆ alloc'
  frame : ∀ x ∈ alloc, x ∉ L.forestBlocks st l cs → st' x = st x
  forest : L.Forest P st' l cs'
  mem : ∀ x ∈ L.forestBlocks st' l cs', x ∈ L.forestBlocks st l cs ∨ (x ∈ alloc' ∧ x ∉ alloc)

/-- Doing nothing is an update. -/
theorem Update.refl (h : L.Forest P st l cs) : L.Update P alloc alloc st st l cs cs where
  alloc_le := subset_rfl
  frame _ _ _ := rfl
  forest := h
  mem _ hx := Or.inl hx

/-- Trees may be dropped from the result. -/
theorem Update.subperm (h : L.Update P alloc alloc' st st' l cs cs') {ds : List B}
    (hs : ds.Subperm cs') : L.Update P alloc alloc' st st' l cs ds where
  alloc_le := h.alloc_le
  frame := h.frame
  forest := h.forest.subperm hs
  mem x hx := h.mem x ((forestBlocks_subperm hs).subset hx)

/-- The order of the trees does not matter. -/
theorem Update.perm_left (h : L.Update P alloc alloc' st st' l cs cs') {ds : List B}
    (hp : ds.Perm cs) : L.Update P alloc alloc' st st' l ds cs' where
  alloc_le := h.alloc_le
  frame x hx hn := h.frame x hx fun hx' => hn ((hp.symm.flatMap_right (L.blocks st l)).subset hx')
  forest := h.forest
  mem x hx := (h.mem x hx).imp_left fun hx' => (hp.symm.flatMap_right (L.blocks st l)).subset hx'

/-- The untouched trees beside an updated forest are as they were. -/
theorem Update.frame_rest (h : L.Update P alloc alloc' st st' l cs cs')
    (hf : L.Forest P st l (cs ++ rest)) (ha : ∀ x ∈ L.forestBlocks st l rest, x ∈ alloc) :
    ∀ x ∈ L.forestBlocks st l rest, st' x = st x := by
  intro x hx
  refine h.frame x (ha x hx) fun hx' => ?_
  have hn := hf.nodup
  rw [forestBlocks_append, List.nodup_append] at hn
  exact hn.2.2 x hx' x hx rfl

/-- **An update composes sideways with untouched trees.** -/
theorem Update.append (h : L.Update P alloc alloc' st st' l cs cs')
    (hf : L.Forest P st l (cs ++ rest)) (ha : ∀ x ∈ L.forestBlocks st l rest, x ∈ alloc) :
    L.Update P alloc alloc' st st' l (cs ++ rest) (cs' ++ rest) := by
  have hrest := h.frame_rest hf ha
  have hn := hf.nodup
  rw [forestBlocks_append, List.nodup_append] at hn
  have hfrest : L.Forest P st l rest := hf.subperm (List.sublist_append_right _ _).subperm
  have hfrest' := hfrest.congr hrest
  refine ⟨h.alloc_le, ?_, ⟨?_, ?_⟩, ?_⟩
  · intro x hx hnot
    rw [forestBlocks_append, List.mem_append, not_or] at hnot
    exact h.frame x hx hnot.1
  · intro c hc
    rcases List.mem_append.mp hc with hc | hc
    · exact h.forest.holds c hc
    · exact hfrest'.holds c hc
  · rw [forestBlocks_append, forestBlocks_congr hrest, List.nodup_append]
    refine ⟨h.forest.nodup, hn.2.1, ?_⟩
    -- a block of an updated tree was in `cs` or is new, so it is none of the rest's
    rintro x hx y hy rfl
    rcases h.mem x hx with hx' | hx'
    · exact hn.2.2 x hx' x hy rfl
    · exact hx'.2 (ha x hy)
  · intro x hx
    rw [forestBlocks_append, forestBlocks_congr hrest, List.mem_append] at hx
    rw [forestBlocks_append, List.mem_append]
    rcases hx with hx | hx
    · exact (h.mem x hx).imp_left Or.inl
    · exact Or.inl (Or.inr hx)

/-- The same, with the untouched trees in front. -/
theorem Update.append_left (h : L.Update P alloc alloc' st st' l cs cs')
    (hf : L.Forest P st l (rest ++ cs)) (ha : ∀ x ∈ L.forestBlocks st l rest, x ∈ alloc) :
    L.Update P alloc alloc' st st' l (rest ++ cs) (rest ++ cs') :=
  ((h.append (hf.subperm List.perm_append_comm.subperm) ha).perm_left List.perm_append_comm).subperm
    List.perm_append_comm.subperm

/-- The contents beside an updated forest are as they were. -/
theorem Update.append_leaves (h : L.Update P alloc alloc' st st' l cs cs')
    (hf : L.Forest P st l (cs ++ rest)) (ha : ∀ x ∈ L.forestBlocks st l rest, x ∈ alloc) :
    L.forestLeaves st' l (cs' ++ rest) = L.forestLeaves st' l cs' ++ L.forestLeaves st l rest := by
  rw [forestLeaves_append, forestLeaves_congr (h.frame_rest hf ha)]

/-- Updates compose in sequence. -/
theorem Update.trans {ds : List B} (h₁ : L.Update P alloc alloc' st st' l cs cs')
    (h₂ : L.Update P alloc' alloc'' st' st'' l cs' ds) : L.Update P alloc alloc'' st st'' l cs ds where
  alloc_le := h₁.alloc_le.trans h₂.alloc_le
  frame x hx hn := by
    rw [← h₁.frame x hx hn]
    refine h₂.frame x (h₁.alloc_le hx) fun hx' => ?_
    rcases h₁.mem x hx' with h | h
    · exact hn h
    · exact h.2 hx
  forest := h₂.forest
  mem x hx := by
    rcases h₂.mem x hx with h | h
    · exact (h₁.mem x h).imp_right fun h' => ⟨h₂.alloc_le h'.1, h'.2⟩
    · exact Or.inr ⟨h.1, fun hx' => h.2 (h₁.alloc_le hx')⟩

/-- A forest of single nodes rewritten over the same block and new ones. -/
theorem Update.leafTops {ts : List B} (hb : b ∈ alloc) (ha : alloc ⊆ alloc') (hnd : ts.Nodup)
    (hnew : ∀ t ∈ ts, t = b ∨ (t ∈ alloc' ∧ t ∉ alloc)) (hP : ∀ t ∈ ts, P 0 (st' t))
    (hst : ∀ x, x ∉ ts → x ≠ b → st' x = st x) : L.Update P alloc alloc' st st' 0 [b] ts := by
  refine ⟨ha, ?_, ⟨hP, by rwa [forestBlocks_zero]⟩, ?_⟩
  · intro x hx hn
    rw [forestBlocks_zero, List.mem_singleton] at hn
    refine hst x (fun ht => ?_) hn
    rcases hnew x ht with rfl | h
    · exact hn rfl
    · exact h.2 hx
  · intro x hx
    rw [forestBlocks_zero] at hx
    rw [forestBlocks_zero, List.mem_singleton]
    exact hnew x hx

/-! ### Upwards -/

/-- The blocks of a forest are its top blocks and those of the kids. -/
theorem forestBlocks_succ_perm (ts : List B) : (L.forestBlocks st (l + 1) ts).Perm
    (ts ++ L.forestBlocks st l (ts.flatMap fun t => L.kids (st t))) := by
  induction ts with
  | nil => exact List.Perm.refl _
  | cons t ts ih =>
      simp only [forestBlocks_cons, List.flatMap_cons, forestBlocks_append, blocks_succ,
        List.cons_append]
      refine List.Perm.cons t ?_
      refine (ih.append_left _).trans ?_
      rw [← List.append_assoc, ← List.append_assoc]
      exact List.perm_append_comm.append_right _

theorem forestLeaves_succ (ts : List B) :
    L.forestLeaves st (l + 1) ts = L.forestLeaves st l (ts.flatMap fun t => L.kids (st t)) := by
  rw [forestLeaves, forestLeaves, List.flatMap_assoc]
  rfl

section Tops
variable {ts : List B} (hts : ∀ t ∈ ts, t ∉ L.forestBlocks st' l cs')
  (hk : (ts.flatMap fun t => L.kids (st'' t)).Subperm cs')
  (hst : ∀ x ∈ L.forestBlocks st' l cs', st'' x = st' x)
include hk hst

/-- New top nodes over some of the trees of a forest: the trees below are untouched. -/
theorem tops_congr : ∀ x ∈ L.forestBlocks st' l (ts.flatMap fun t => L.kids (st'' t)), st'' x = st' x :=
  fun x hx => hst x ((forestBlocks_subperm hk).subset hx)

theorem forestLeaves_ofTops :
    L.forestLeaves st'' (l + 1) ts = L.forestLeaves st' l (ts.flatMap fun t => L.kids (st'' t)) := by
  rw [forestLeaves_succ]
  exact forestLeaves_congr (tops_congr hk hst)

theorem mem_forestBlocks_ofTops {x : B} (hx : x ∈ L.forestBlocks st'' (l + 1) ts) :
    x ∈ ts ∨ x ∈ L.forestBlocks st' l cs' := by
  rcases List.mem_append.mp ((forestBlocks_succ_perm ts).subset hx) with hx | hx
  · exact Or.inl hx
  · rw [forestBlocks_congr (tops_congr hk hst)] at hx
    exact Or.inr ((forestBlocks_subperm hk).subset hx)

include hts in
/-- **New top nodes over some of the trees of a forest are a forest.** -/
theorem Forest.ofTops (h : L.Forest P st' l cs') (hnd : ts.Nodup) (hP : ∀ t ∈ ts, P (l + 1) (st'' t)) :
    L.Forest P st'' (l + 1) ts := by
  have hkf := (h.subperm hk).congr (tops_congr hk hst)
  refine ⟨fun t ht => ⟨hP t ht, fun c hc => hkf.holds c (List.mem_flatMap.mpr ⟨t, ht, hc⟩)⟩, ?_⟩
  rw [(forestBlocks_succ_perm ts).nodup_iff, List.nodup_append]
  refine ⟨hnd, hkf.nodup, ?_⟩
  rintro t ht x hx rfl
  rw [forestBlocks_congr (tops_congr hk hst)] at hx
  exact hts t ht ((forestBlocks_subperm hk).subset hx)

end Tops

/-- **A tree moves up to its parent's block.** The top node, with a single kid, takes over that kid's links and
    values. -/
theorem Forest.hoist (hf : L.Forest P st (l + 1) [b]) (st' : B → N) (hkid : L.kids (st b) = [c])
    (hkids : L.kids (st' b) = L.kids (st c)) (hvals : L.vals (st' b) = L.vals (st c))
    (hP : P l (st' b)) (hst : ∀ x, x ≠ b → st' x = st x) :
    L.Forest P st' l [b] ∧ L.leaves st' l b = L.leaves st l c ∧
      L.blocks st' l b ⊆ b :: L.blocks st l c := by
  obtain ⟨-, hcf, hb⟩ := hf.kids
  rw [hkid] at hcf hb
  cases l with
  | zero =>
      refine ⟨⟨fun x hx => ?_, by simp⟩, hvals, by simp⟩
      rw [List.mem_singleton.mp hx]
      exact hP
  | succ l =>
      obtain ⟨-, hkf, -⟩ := hcf.kids
      have hbk : b ∉ L.forestBlocks st l (L.kids (st c)) := fun hx => hb (by
        simp only [forestBlocks_cons, forestBlocks_nil, List.append_nil, blocks_succ]
        exact List.mem_cons_of_mem _ hx)
      have hk : ([b].flatMap fun t => L.kids (st' t)).Subperm (L.kids (st c)) := by
        simpa [hkids] using List.Subperm.refl _
      have hframe : ∀ x ∈ L.forestBlocks st l (L.kids (st c)), st' x = st x := fun x hx =>
        hst x fun he => hbk (he ▸ hx)
      refine ⟨Forest.ofTops (by simpa using hbk) hk hframe hkf (List.nodup_singleton b) (by simpa using hP),
        ?_, ?_⟩
      · rw [leaves_succ, leaves_succ, hkids, forestLeaves_congr hframe]
      · rw [blocks_succ, blocks_succ, hkids, forestBlocks_congr hframe]
        exact List.cons_subset_cons b (List.subset_cons_self _ _)

/-- It is the kid's block that the tree gives up. -/
theorem Forest.hoist_blocks (hf : L.Forest P st (l + 1) [b]) (st' : B → N) (hkid : L.kids (st b) = [c])
    (hkids : L.kids (st' b) = L.kids (st c)) (hst : ∀ x, x ≠ b → st' x = st x) :
    L.blocks st (l + 1) b = b :: c :: (L.blocks st' l b).tail := by
  obtain ⟨-, -, hb⟩ := hf.kids
  rw [hkid, forestBlocks_singleton] at hb
  rw [blocks_succ, hkid, forestBlocks_singleton]
  cases l with
  | zero => rfl
  | succ l =>
      rw [blocks_succ, blocks_succ, hkids, List.tail_cons]
      refine congrArg (fun xs => b :: c :: xs) (forestBlocks_congr fun x hx => hst x ?_).symm
      rintro rfl
      exact hb (List.mem_cons_of_mem _ hx)

/-- The top block of a tree is not among the blocks its updated kids use. -/
theorem Update.top_notMem (h : L.Update P alloc alloc' st st' l (L.kids (st b)) cs')
    (hf : L.Forest P st (l + 1) [b]) (hb : b ∈ alloc) : b ∉ L.forestBlocks st' l cs' := by
  intro hx
  rcases h.mem b hx with hx' | hx'
  · exact hf.kids.2.2 hx'
  · exact hx'.2 hb

section UpTops
variable {ts : List B} (h : L.Update P alloc alloc' st st' l (L.kids (st b)) cs')
  (hf : L.Forest P st (l + 1) [b]) (halloc : ∀ x ∈ L.forestBlocks st (l + 1) [b], x ∈ alloc)
  (ha : alloc' ⊆ alloc'') (hnew : ∀ t ∈ ts, t = b ∨ (t ∈ alloc'' ∧ t ∉ alloc'))
  (hst : ∀ x, x ∉ ts → x ≠ b → st'' x = st' x)
include h hf halloc hnew

/-- Tops on the old block and on new blocks are apart from the updated kids. -/
theorem Update.tops_notMem : ∀ t ∈ ts, t ∉ L.forestBlocks st' l cs' := by
  intro t ht hx
  have hb : b ∈ alloc := halloc b (by simp [self_mem_blocks])
  rcases hnew t ht with rfl | hn
  · exact h.top_notMem hf hb hx
  · rcases h.mem t hx with hx' | hx'
    · refine hn.2 (h.alloc_le (halloc t ?_))
      simp only [forestBlocks_cons, forestBlocks_nil, List.append_nil, blocks_succ]
      exact List.mem_cons_of_mem _ hx'
    · exact hn.2 hx'.1

include hst in
theorem Update.tops_frame : ∀ x ∈ L.forestBlocks st' l cs', st'' x = st' x := by
  intro x hx
  have hb : b ∈ alloc := halloc b (by simp [self_mem_blocks])
  exact hst x (fun ht => h.tops_notMem hf halloc hnew x ht hx)
    (fun he => h.top_notMem hf hb (he ▸ hx))

include ha hst in
/-- **An update of the kids of a tree whose top node is rewritten, split over new blocks or dropped, is an
    update of the tree.** -/
theorem Update.upTops (hnd : ts.Nodup) (hP : ∀ t ∈ ts, P (l + 1) (st'' t))
    (hk : (ts.flatMap fun t => L.kids (st'' t)).Subperm cs') :
    L.Update P alloc alloc'' st st'' (l + 1) [b] ts := by
  have hframe := h.tops_frame hf halloc hnew hst
  refine ⟨h.alloc_le.trans ha, ?_,
    Forest.ofTops (h.tops_notMem hf halloc hnew) hk hframe h.forest hnd hP, ?_⟩
  · intro x hx hn
    simp only [forestBlocks_cons, forestBlocks_nil, List.append_nil, blocks_succ, List.mem_cons,
      not_or] at hn
    rw [hst x (fun ht => ?_) hn.1]
    · exact h.frame x hx hn.2
    · rcases hnew x ht with rfl | hx'
      · exact hn.1 rfl
      · exact hx'.2 (h.alloc_le hx)
  · intro x hx
    simp only [forestBlocks_cons, forestBlocks_nil, List.append_nil, blocks_succ, List.mem_cons]
    rcases mem_forestBlocks_ofTops hk hframe hx with ht | hx
    · rcases hnew x ht with rfl | hn
      · exact Or.inl (Or.inl rfl)
      · exact Or.inr ⟨hn.1, fun hx' => hn.2 (h.alloc_le hx')⟩
    · exact (h.mem x hx).imp Or.inr fun hx' => ⟨ha hx'.1, hx'.2⟩

end UpTops

/-! ## Trees inside trees -/

/-- The tree of level `m` at `c` is one of the trees that make up the tree of level `l` at `b`. -/
inductive Below (L : Layout B N V) (st : B → N) (m : Nat) (c : B) : Nat → B → Prop where
  | here : Below L st m c m c
  | down {l : Nat} {b k : B} : k ∈ L.kids (st b) → Below L st m c l k → Below L st m c (l + 1) b

variable {m : Nat}

/-- Every block of a tree is the top of a tree inside it. -/
theorem exists_below : ∀ {l : Nat} {b : B}, c ∈ L.blocks st l b → ∃ m, L.Below st m c l b
  | 0, b, h => by
      obtain rfl := List.mem_singleton.mp h
      exact ⟨0, .here⟩
  | l + 1, b, h => by
      rcases List.mem_cons.mp h with rfl | h
      · exact ⟨l + 1, .here⟩
      · obtain ⟨k, hk, hc⟩ := mem_forestBlocks.mp h
        obtain ⟨m, hm⟩ := exists_below hc
        exact ⟨m, .down hk hm⟩

theorem Below.blocks_subperm (h : L.Below st m c l b) : (L.blocks st m c).Subperm (L.blocks st l b) := by
  induction h with
  | here => exact List.Subperm.refl _
  | @down l b k hk _ ih =>
      have hkid : (L.forestBlocks st l [k]).Subperm (L.forestBlocks st l (L.kids (st b))) :=
        forestBlocks_subperm (List.singleton_subperm_iff.mpr hk)
      simp only [forestBlocks_cons, forestBlocks_nil, List.append_nil] at hkid
      exact (ih.trans hkid).trans (List.sublist_cons_self _ _).subperm

theorem Below.holds (h : L.Below st m c l b) (hb : L.Holds P st l b) : L.Holds P st m c := by
  induction h with
  | here => exact hb
  | down hk _ ih => exact ih (hb.2 _ hk)

/-- A tree inside a tree is a tree. -/
theorem Below.forest (h : L.Below st m c l b) (hf : L.Forest P st l [b]) : L.Forest P st m [c] where
  holds x hx := by
    rw [List.mem_singleton.mp hx]
    exact h.holds (hf.holds b (List.mem_singleton.mpr rfl))
  nodup := by
    obtain ⟨ds, hp, hds⟩ := h.blocks_subperm
    have hn := hf.nodup
    simp only [forestBlocks_cons, forestBlocks_nil, List.append_nil] at hn ⊢
    exact hp.nodup_iff.mp (hn.sublist hds)

theorem Below.trans {m' : Nat} {a : B} (h : L.Below st m c m' a) (h' : L.Below st m' a l b) :
    L.Below st m c l b := by
  induction h' with
  | here => exact h
  | down hk _ ih => exact .down hk ih

/-! ### Every block has one place -/

/-- Trees of a forest that share a block are the same. -/
theorem Forest.eq_of_mem (hf : L.Forest P st l cs) {k k' x : B} (hk : k ∈ cs) (hk' : k' ∈ cs)
    (hx : x ∈ L.blocks st l k) (hx' : x ∈ L.blocks st l k') : k = k' := by
  by_contra hne
  have hsymm : Std.Symm (Function.onFun List.Disjoint (L.blocks st l)) := ⟨fun _ _ h => h.symm⟩
  exact (List.nodup_flatMap.mp hf.nodup).2.forall hk hk' hne hx hx'

theorem Forest.nodup_tops (hf : L.Forest P st l cs) : cs.Nodup :=
  (List.nodup_flatMap.mp hf.nodup).2.imp fun hdisj heq => by
    rw [heq] at hdisj
    exact hdisj self_mem_blocks self_mem_blocks

/-- A kid anywhere in a tree is not the top of the tree. -/
theorem Below.kid_mem {k : B} (h : L.Below st (m + 1) c l b) (hk : k ∈ L.kids (st c)) :
    ∃ l', l = l' + 1 ∧ k ∈ L.forestBlocks st l' (L.kids (st b)) := by
  cases h with
  | here => exact ⟨m, rfl, blocks_subset_forest hk self_mem_blocks⟩
  | @down l _ b' hb' hbel =>
      refine ⟨l, rfl, blocks_subset_forest hb' (hbel.blocks_subperm.subset ?_)⟩
      exact List.mem_cons_of_mem _ (blocks_subset_forest hk self_mem_blocks)

theorem Below.kid_ne_top {k : B} (hf : L.Forest P st l [b]) (h : L.Below st (m + 1) c l b)
    (hk : k ∈ L.kids (st c)) : k ≠ b := by
  obtain ⟨l, rfl, hmem⟩ := h.kid_mem hk
  rintro rfl
  exact hf.kids.2.2 hmem

/-- A kid of the top that is also a kid further down would be in its own tree or in two. -/
theorem Below.not_kid_of_top {k b' : B} (hf : L.Forest P st (l + 1) [b]) (hb' : b' ∈ L.kids (st b))
    (h : L.Below st (m + 1) c l b') (hk : k ∈ L.kids (st c)) : k ∉ L.kids (st b) := by
  intro hkb
  obtain ⟨-, hkf, -⟩ := hf.kids
  have hmem : k ∈ L.blocks st l b' := h.blocks_subperm.subset
    (List.mem_cons_of_mem _ (blocks_subset_forest hk self_mem_blocks))
  have heq := hkf.eq_of_mem hkb hb' self_mem_blocks hmem
  exact h.kid_ne_top (hkf.subperm (List.singleton_subperm_iff.mpr hb')) hk heq

/-- **A block is the kid of one node of a tree, at one position.** -/
theorem Below.parent_unique {m' i i' : Nat} {c' k : B} (hf : L.Forest P st l [b])
    (h : L.Below st (m + 1) c l b) (h' : L.Below st (m' + 1) c' l b)
    (hk : (L.kids (st c))[i]? = some k) (hk' : (L.kids (st c'))[i']? = some k) : c = c' ∧ i = i' := by
  have hmem := List.mem_of_getElem? hk
  have hmem' := List.mem_of_getElem? hk'
  generalize hm : m + 1 = n at h
  generalize hm' : m' + 1 = n' at h'
  induction h with
  | here =>
      cases h' with
      | here =>
          obtain rfl := hm
          refine ⟨rfl, ?_⟩
          obtain ⟨hi, hget⟩ := List.getElem?_eq_some_iff.mp hk
          obtain ⟨hi', hget'⟩ := List.getElem?_eq_some_iff.mp hk'
          exact (List.Nodup.getElem_inj_iff hf.kids.2.1.nodup_tops).mp (hget.trans hget'.symm)
      | down hb' hbel' =>
          obtain rfl := hm'
          exact absurd hmem (Below.not_kid_of_top hf hb' hbel' hmem')
  | @down l b b₁ hb₁ hbel ih =>
      obtain rfl := hm
      cases h' with
      | here => exact absurd hmem' (Below.not_kid_of_top hf hb₁ hbel hmem)
      | @down _ _ b₂ hb₂ hbel' =>
          obtain rfl := hm'
          obtain ⟨-, hkf, -⟩ := hf.kids
          -- both are in the same kid's tree
          have hx : k ∈ L.blocks st l b₁ := hbel.blocks_subperm.subset
            (List.mem_cons_of_mem _ (blocks_subset_forest hmem self_mem_blocks))
          have hx' : k ∈ L.blocks st l b₂ := hbel'.blocks_subperm.subset
            (List.mem_cons_of_mem _ (blocks_subset_forest hmem' self_mem_blocks))
          obtain rfl := hkf.eq_of_mem hb₁ hb₂ hx hx'
          exact ih (hkf.subperm (List.singleton_subperm_iff.mpr hb₁)) hbel'

/-! ### Rewriting inside -/

/-- A whole changes by as much as its part. -/
theorem perm_append_of_part {α : Type*} {whole whole' part part' rest new old : List α}
    (h : whole.Perm (part ++ rest)) (h' : whole'.Perm (part' ++ rest)) (hpart : (part' ++ old).Perm (part ++ new)) :
    (whole' ++ old).Perm (whole ++ new) :=
  calc whole' ++ old
      |>.Perm (part' ++ rest ++ old) := h'.append_right old
    _ |>.Perm (part' ++ old ++ rest) := by
        simp only [List.append_assoc]
        exact List.perm_append_comm.append_left _
    _ |>.Perm (part ++ new ++ rest) := hpart.append_right rest
    _ |>.Perm (part ++ rest ++ new) := by
        simp only [List.append_assoc]
        exact List.perm_append_comm.append_left _
    _ |>.Perm (whole ++ new) := (h.append_right new).symm

/-- **Rewriting a tree in place rewrites every tree around it in place.** The contents change by as much, and
    no block is lost if none is lost below. -/
theorem Update.lift (hu : L.Update P alloc alloc' st st' m [c] [c]) (hbel : L.Below st m c l b)
    (hf : L.Forest P st l [b]) (halloc : ∀ x ∈ L.forestBlocks st l [b], x ∈ alloc) :
    L.Update P alloc alloc' st st' l [b] [b] ∧
      (L.leaves st' l b ++ L.leaves st m c).Perm (L.leaves st l b ++ L.leaves st' m c) ∧
      (L.blocks st m c ⊆ L.blocks st' m c → L.blocks st l b ⊆ L.blocks st' l b) := by
  induction hbel with
  | here => exact ⟨hu, List.perm_append_comm, id⟩
  | @down l b k hk hbel ih =>
      obtain ⟨hP, hkf, hbk⟩ := hf.kids
      obtain ⟨rest, hrest⟩ : ∃ rest, (k :: rest).Perm (L.kids (st b)) := by
        obtain ⟨l₁, l₂, he⟩ := List.append_of_mem hk
        exact ⟨l₁ ++ l₂, he ▸ List.perm_middle.symm⟩
      have hkf' : L.Forest P st l ([k] ++ rest) := hkf.subperm hrest.subperm
      have hin : ∀ x ∈ L.forestBlocks st l ([k] ++ rest), x ∈ alloc := by
        intro x hx
        refine halloc x ?_
        simp only [forestBlocks_cons, forestBlocks_nil, List.append_nil, blocks_succ]
        exact List.mem_cons_of_mem _ ((hrest.flatMap_right (L.blocks st l)).subset hx)
      have hin' : ∀ x ∈ L.forestBlocks st l rest, x ∈ alloc := fun x hx =>
        hin x (by rw [forestBlocks_append]; exact List.mem_append_right _ hx)
      obtain ⟨hk', hperm, hsubset⟩ := ih (hkf'.subperm (List.sublist_append_left _ _).subperm) fun x hx =>
        hin x (by rw [forestBlocks_append]; exact List.mem_append_left _ hx)
      -- the top node is none of the rewritten blocks
      have hb : b ∈ alloc := halloc b (by simp [self_mem_blocks])
      have htop : st' b = st b := hu.frame b hb fun hx => hbk
        (blocks_subset_forest hk (hbel.blocks_subperm.subset (by simpa using hx)))
      have hkids := (hk'.append hkf' hin').perm_left hrest.symm
      have hsub : ([b].flatMap fun t => L.kids (st' t)).Subperm ([k] ++ rest) := by
        simpa [htop] using hrest.symm.subperm
      have hnew : ∀ t ∈ [b], t = b ∨ (t ∈ alloc' ∧ t ∉ alloc') := fun t ht =>
        Or.inl (List.mem_singleton.mp ht)
      refine ⟨hkids.upTops hf halloc subset_rfl hnew (fun _ _ _ => rfl) (List.nodup_singleton b)
        (fun t ht => ?_) hsub, ?_, ?_⟩
      · obtain rfl := List.mem_singleton.mp ht
        exact htop ▸ hP
      · have h' : (L.leaves st' (l + 1) b).Perm (L.leaves st' l k ++ L.forestLeaves st l rest) := by
          rw [leaves_succ, htop]
          refine (forestLeaves_perm hrest.symm).trans ?_
          rw [← List.singleton_append, hk'.append_leaves hkf' hin']
          simp
        have h₀ : (L.leaves st (l + 1) b).Perm (L.leaves st l k ++ L.forestLeaves st l rest) := by
          rw [leaves_succ]
          exact forestLeaves_perm hrest.symm
        exact perm_append_of_part h₀ h' hperm
      · intro hbelow x hx
        rcases List.mem_cons.mp hx with rfl | hx
        · exact self_mem_blocks
        · rw [blocks_succ, htop]
          refine List.mem_cons_of_mem _ ((hrest.flatMap_right (L.blocks st' l)).subset ?_)
          rcases List.mem_append.mp ((hrest.symm.flatMap_right (L.blocks st l)).subset hx) with hx | hx
          · exact List.mem_append_left _ (hsubset hbelow hx)
          · refine List.mem_append_right _ ?_
            show x ∈ L.forestBlocks st' l rest
            rw [forestBlocks_congr (hk'.frame_rest hkf' hin')]
            exact hx

/-- **Rewriting a tree in place inside a forest rewrites the forest in place.** -/
theorem Update.inside (hu : L.Update P alloc alloc' st st' m [c] [c]) (hb : b ∈ cs)
    (hbel : L.Below st m c l b) (hf : L.Forest P st l cs)
    (halloc : ∀ x ∈ L.forestBlocks st l cs, x ∈ alloc) :
    L.Update P alloc alloc' st st' l cs cs ∧
      (L.forestLeaves st' l cs ++ L.leaves st m c).Perm (L.forestLeaves st l cs ++ L.leaves st' m c) ∧
      (L.blocks st m c ⊆ L.blocks st' m c → L.forestBlocks st l cs ⊆ L.forestBlocks st' l cs) := by
  obtain ⟨l₁, l₂, rfl⟩ := List.append_of_mem hb
  have hperm : ([b] ++ (l₁ ++ l₂)).Perm (l₁ ++ b :: l₂) :=
    by simpa using List.perm_middle.symm
  have hf' := hf.subperm hperm.subperm
  have hin : ∀ x ∈ L.forestBlocks st l [b] ++ L.forestBlocks st l (l₁ ++ l₂), x ∈ alloc := fun x hx =>
    halloc x ((hperm.flatMap_right (L.blocks st l)).subset (by rwa [← forestBlocks_append] at hx))
  obtain ⟨hu', hleaves, hsub⟩ := hu.lift hbel (hf'.subperm (List.sublist_append_left _ _).subperm)
    fun x hx => hin x (List.mem_append_left _ hx)
  have hrest : ∀ x ∈ L.forestBlocks st l (l₁ ++ l₂), x ∈ alloc := fun x hx =>
    hin x (List.mem_append_right _ hx)
  refine ⟨((hu'.append hf' hrest).perm_left hperm.symm).subperm hperm.symm.subperm, ?_, ?_⟩
  · -- the untouched trees move past the rewritten one
    have h' : (L.forestLeaves st' l (l₁ ++ b :: l₂)).Perm
        (L.forestLeaves st l (l₁ ++ l₂) ++ L.leaves st' l b) := by
      refine (forestLeaves_perm hperm.symm).trans ?_
      rw [hu'.append_leaves hf' hrest, forestLeaves_cons, forestLeaves_nil, List.append_nil]
      exact List.perm_append_comm
    have h₀ : (L.forestLeaves st l (l₁ ++ b :: l₂)).Perm
        (L.forestLeaves st l (l₁ ++ l₂) ++ L.leaves st l b) := by
      refine (forestLeaves_perm hperm.symm).trans ?_
      rw [forestLeaves_append, forestLeaves_cons, forestLeaves_nil, List.append_nil]
      exact List.perm_append_comm
    refine (h'.append_right _).trans ((List.Perm.trans ?_ (h₀.append_right _).symm))
    rw [List.append_assoc, List.append_assoc]
    exact hleaves.append_left _
  · intro hbelow x hx
    refine (hperm.flatMap_right (L.blocks st' l)).subset ?_
    rw [List.flatMap_append]
    have hx := (hperm.symm.flatMap_right (L.blocks st l)).subset hx
    rw [List.flatMap_append] at hx
    rcases List.mem_append.mp hx with hx | hx
    · exact List.mem_append_left _ (by simpa using hsub hbelow (by simpa using hx))
    · refine List.mem_append_right _ ?_
      show x ∈ L.forestBlocks st' l (l₁ ++ l₂)
      rw [forestBlocks_congr (hu'.frame_rest hf' hrest)]
      exact hx

end Layout
