import TemporalRTree.Lib.StoreTree

/-!
# `Lib.Cursor` — walking a tree with a stack of frames

A traversal of a tree laid out in a store keeps a stack of frames, the deepest first: the block of a node, its
level, and how many of its kids (or values, in a leaf) are behind. `stackLeaves` is what the traversal still
has to yield, in order. The moves of a traversal are passing over values of a leaf (`frameWork_leaf`), going
down to a kid (`restLeaves_kid`) and leaving an exhausted node (`restLeaves_exhausted_inner`); `stackWork`
bounds the number of moves left. `visits` are the nodes a traversal comes to that stands on one node at a time.
-/

namespace Layout

/-- A frame of a traversal: `pos` kids or values of the node are behind. -/
structure Frame (B : Type*) where
  block : B
  level : Nat
  pos : Nat

variable {B N V : Type*} (L : Layout B N V)

/-- What is ahead at a frame's node and below it. -/
def restLeaves (st : B → N) (f : Frame B) : List V :=
  match f.level with
  | 0 => (L.vals (st f.block)).drop f.pos
  | l + 1 => L.forestLeaves st l ((L.kids (st f.block)).drop f.pos)

/-- What a traversal still has to yield. -/
def stackLeaves (st : B → N) (stack : List (Frame B)) : List V := stack.flatMap (L.restLeaves st)

/-- A bound on the moves in a tree of level `l`. -/
def treeWork (st : B → N) : Nat → B → Nat
  | 0, b => (L.vals (st b)).length + 1
  | l + 1, b => ((L.kids (st b)).map fun c => treeWork st l c + 1).sum + 1

/-- A bound on the moves left at a frame. -/
def frameWork (st : B → N) (f : Frame B) : Nat :=
  match f.level with
  | 0 => ((L.vals (st f.block)).drop f.pos).length + 1
  | l + 1 => (((L.kids (st f.block)).drop f.pos).map fun c => L.treeWork st l c + 1).sum + 1

/-- A bound on the moves left. -/
def stackWork (st : B → N) (stack : List (Frame B)) : Nat := (stack.map (L.frameWork st)).sum

variable {L} {st : B → N} {l pos : Nat} {b c : B} {stack : List (Frame B)}

@[simp] theorem stackLeaves_nil : L.stackLeaves st [] = [] := rfl

@[simp] theorem stackLeaves_cons {f : Frame B} :
    L.stackLeaves st (f :: stack) = L.restLeaves st f ++ L.stackLeaves st stack := rfl

@[simp] theorem stackWork_cons {f : Frame B} :
    L.stackWork st (f :: stack) = L.frameWork st f + L.stackWork st stack := rfl

theorem frameWork_pos (f : Frame B) : 0 < L.frameWork st f := by
  unfold frameWork
  split <;> exact Nat.succ_pos _

/-- The whole tree is ahead of a new frame. -/
theorem restLeaves_start : L.restLeaves st ⟨b, l, 0⟩ = L.leaves st l b := by
  cases l <;> rfl

theorem frameWork_start : L.frameWork st ⟨b, l, 0⟩ = L.treeWork st l b := by
  cases l <;> rfl

/-! ## Moves -/

/-- Values may be passed over in a leaf; this is work done. -/
theorem frameWork_leaf {pos' : Nat} (h : pos < pos') (hlen : pos < (L.vals (st b)).length) :
    L.frameWork st ⟨b, 0, pos'⟩ < L.frameWork st ⟨b, 0, pos⟩ := by
  simp only [frameWork, List.length_drop]
  omega

/-- Kids or values may be passed over. -/
theorem frameWork_anti {pos' : Nat} (h : pos ≤ pos') :
    L.frameWork st ⟨b, l, pos'⟩ ≤ L.frameWork st ⟨b, l, pos⟩ := by
  cases l with
  | zero =>
      simp only [frameWork, List.length_drop]
      omega
  | succ l =>
      have hsub := (List.drop_sublist_drop_left (L.kids (st b)) h).map fun c => L.treeWork st l c + 1
      exact Nat.succ_le_succ (hsub.sum_le_sum fun _ _ => Nat.zero_le _)

/-- Going down to the next kid. -/
theorem restLeaves_kid (h : (L.kids (st b))[pos]? = some c) :
    L.restLeaves st ⟨b, l + 1, pos⟩ = L.leaves st l c ++ L.restLeaves st ⟨b, l + 1, pos + 1⟩ := by
  obtain ⟨hlt, hget⟩ := List.getElem?_eq_some_iff.mp h
  simp only [restLeaves]
  rw [List.drop_eq_getElem_cons hlt, hget, forestLeaves_cons]

theorem frameWork_kid (h : (L.kids (st b))[pos]? = some c) :
    L.frameWork st ⟨b, l + 1, pos⟩ = L.treeWork st l c + 1 + L.frameWork st ⟨b, l + 1, pos + 1⟩ := by
  obtain ⟨hlt, hget⟩ := List.getElem?_eq_some_iff.mp h
  simp only [frameWork]
  rw [List.drop_eq_getElem_cons hlt, hget, List.map_cons, List.sum_cons, Nat.add_assoc]

/-- Nothing is ahead of an exhausted frame. -/
theorem restLeaves_exhausted_inner (h : (L.kids (st b)).length ≤ pos) :
    L.restLeaves st ⟨b, l + 1, pos⟩ = [] := by
  simp only [restLeaves, List.drop_eq_nil_of_le h, forestLeaves_nil]

/-! ## Walks

The frames of a traversal of one tree. -/

/-- The frames, the deepest first, of a traversal of the tree of level `l` at `b`: every frame but the deepest
    has just passed the kid the frame before it is at. -/
inductive Walk (L : Layout B N V) (st : B → N) : Nat → B → List (Frame B) → Prop where
  | leaf {b : B} {pos : Nat} : Walk L st 0 b [⟨b, 0, pos⟩]
  | inner {l : Nat} {b : B} {pos : Nat} (h : pos ≤ (L.kids (st b)).length) :
      Walk L st (l + 1) b [⟨b, l + 1, pos⟩]
  | deeper {l : Nat} {b c : B} {pos : Nat} {stack : List (Frame B)}
      (hc : (L.kids (st b))[pos]? = some c) (h : Walk L st l c stack) :
      Walk L st (l + 1) b (stack ++ [⟨b, l + 1, pos + 1⟩])

/-- The blocks a traversal is at, and those it followed a downlink to from there. -/
def startedBlocks (L : Layout B N V) (st : B → N) (stack : List (Frame B)) : List B :=
  stack.flatMap fun f => f.block ::
    match f.level with
    | 0 => []
    | _ + 1 => (L.kids (st f.block)).take f.pos

variable {st' : B → N}

theorem stackLeaves_append {stack stack' : List (Frame B)} :
    L.stackLeaves st (stack ++ stack') = L.stackLeaves st stack ++ L.stackLeaves st stack' :=
  List.flatMap_append

theorem startedBlocks_append {stack stack' : List (Frame B)} :
    L.startedBlocks st (stack ++ stack') = L.startedBlocks st stack ++ L.startedBlocks st stack' :=
  List.flatMap_append

theorem Walk.start : L.Walk st l b [⟨b, l, 0⟩] := by
  cases l with
  | zero => exact .leaf
  | succ l => exact .inner (Nat.zero_le _)

theorem Walk.ne_nil (h : L.Walk st l b stack) : stack ≠ [] := by
  cases h <;> simp

/-- A walk stands at the top of its tree. -/
theorem Walk.top_mem (h : L.Walk st l b stack) : b ∈ L.startedBlocks st stack := by
  cases h <;> simp [startedBlocks]

/-- Every frame is at a subtree. -/
theorem Walk.frame_below (h : L.Walk st l b stack) : ∀ f ∈ stack, L.Below st f.level f.block l b := by
  induction h with
  | leaf => simp [Below.here]
  | inner => simp [Below.here]
  | deeper hc _ ih =>
      intro f hf
      rcases List.mem_append.mp hf with hf | hf
      · exact .down (List.mem_of_getElem? hc) (ih f hf)
      · rw [List.mem_singleton.mp hf]
        exact .here

/-- A walk sees its own tree only. -/
theorem Walk.congr (h : L.Walk st l b stack) (hst : ∀ x ∈ L.blocks st l b, st' x = st x) :
    L.Walk st' l b stack ∧ L.stackLeaves st' stack = L.stackLeaves st stack := by
  induction h with
  | leaf => exact ⟨.leaf, by simp [restLeaves, hst _ self_mem_blocks]⟩
  | @inner l b pos h =>
      have hb := hst b self_mem_blocks
      refine ⟨.inner (by rwa [hb]), ?_⟩
      simp only [stackLeaves_cons, stackLeaves_nil, restLeaves, hb, List.append_nil]
      refine forestLeaves_congr fun x hx => hst x (List.mem_cons_of_mem _ ?_)
      exact (forestBlocks_subperm (List.drop_sublist pos _).subperm).subset hx
  | @deeper l b c pos stack hc _ ih =>
      have hb := hst b self_mem_blocks
      have hkids : ∀ x ∈ L.forestBlocks st l (L.kids (st b)), st' x = st x := fun x hx =>
        hst x (List.mem_cons_of_mem _ hx)
      obtain ⟨hw, hleaves⟩ := ih fun x hx => hkids x (blocks_subset_forest (List.mem_of_getElem? hc) hx)
      refine ⟨.deeper (by rwa [hb]) hw, ?_⟩
      rw [stackLeaves_append, stackLeaves_append, hleaves]
      simp only [stackLeaves_cons, stackLeaves_nil, restLeaves, hb, List.append_nil]
      exact congrArg _ (forestLeaves_congr fun x hx =>
        hkids x ((forestBlocks_subperm (List.drop_sublist _ _).subperm).subset hx))

/-- Going down to the next kid of the deepest frame. -/
theorem Walk.descend {m : Nat} {x : B} (h : L.Walk st l b (⟨x, m + 1, pos⟩ :: stack))
    (hc : (L.kids (st x))[pos]? = some c) :
    L.Walk st l b (⟨c, m, 0⟩ :: ⟨x, m + 1, pos + 1⟩ :: stack) := by
  generalize hs : (⟨x, m + 1, pos⟩ : Frame B) :: stack = frames at h
  induction h generalizing stack with
  | leaf => simp at hs
  | inner =>
      simp only [List.cons.injEq, Frame.mk.injEq] at hs
      obtain ⟨⟨rfl, hm, rfl⟩, rfl⟩ := hs
      obtain rfl := Nat.succ.inj hm
      exact Walk.deeper hc .start
  | @deeper l b k pos' frames hk hw ih =>
      obtain ⟨f, rest, rfl⟩ := List.exists_cons_of_ne_nil hw.ne_nil
      obtain ⟨rfl, rfl⟩ := List.cons.inj hs
      exact Walk.deeper hk (ih rfl)

/-- Passing over values of the leaf of the deepest frame. -/
theorem Walk.skip {x : B} (h : L.Walk st l b (⟨x, 0, pos⟩ :: stack)) (pos' : Nat) :
    L.Walk st l b (⟨x, 0, pos'⟩ :: stack) := by
  generalize hs : (⟨x, 0, pos⟩ : Frame B) :: stack = frames at h
  induction h generalizing stack with
  | leaf =>
      simp only [List.cons.injEq, Frame.mk.injEq] at hs
      obtain ⟨⟨rfl, -, -⟩, rfl⟩ := hs
      exact .leaf
  | inner => simp at hs
  | @deeper l b k pos' frames hk hw ih =>
      obtain ⟨f, rest, rfl⟩ := List.exists_cons_of_ne_nil hw.ne_nil
      obtain ⟨rfl, rfl⟩ := List.cons.inj hs
      exact Walk.deeper hk (ih rfl)

/-- Leaving the node of the deepest frame. -/
theorem Walk.leave {f : Frame B} (h : L.Walk st l b (f :: stack)) : stack = [] ∨ L.Walk st l b stack := by
  generalize hs : f :: stack = frames at h
  induction h generalizing stack with
  | leaf => exact Or.inl (List.cons.inj hs).2
  | inner => exact Or.inl (List.cons.inj hs).2
  | @deeper l b k pos' frames hk hw ih =>
      obtain ⟨g, rest, rfl⟩ := List.exists_cons_of_ne_nil hw.ne_nil
      obtain ⟨rfl, rfl⟩ := List.cons.inj hs
      rcases ih rfl with rfl | hw'
      · exact Or.inr (.inner (List.getElem?_eq_some_iff.mp hk).1)
      · exact Or.inr (.deeper hk hw')

/-! ## Growing trees under a walk -/

/-- The value `v` went into the tree of `c`, which became the trees `c :: new`; the trees of its siblings
    `K₁ ++ K₂` are as they were. -/
structure Grows (L : Layout B N V) (st st' : B → N) (l : Nat) (v : V) (K₁ : List B) (c : B)
    (K₂ new : List B) : Prop where
  frame : ∀ x ∈ L.forestBlocks st l (K₁ ++ K₂), st' x = st x
  leaves_perm : (L.forestLeaves st' l (c :: new)).Perm (v :: L.leaves st l c)

/-- What is ahead stays, but for `v`, which may have come in. -/
def Takes (L : Layout B N V) (st st' : B → N) (v : V) (stack : List (Frame B)) : Prop :=
  (L.stackLeaves st' stack).Perm (L.stackLeaves st stack) ∨
    (L.stackLeaves st' stack).Perm (v :: L.stackLeaves st stack)

section Grow
variable {v : V} {K₁ K₂ new : List B} (hg : L.Grows st st' l v K₁ c K₂ new)
include hg

theorem Grows.frame_left {k : B} (hk : k ∈ K₁) : ∀ x ∈ L.blocks st l k, st' x = st x :=
  fun x hx => hg.frame x (blocks_subset_forest (List.mem_append_left _ hk) hx)

theorem Grows.frame_right {k : B} (hk : k ∈ K₂) : ∀ x ∈ L.blocks st l k, st' x = st x :=
  fun x hx => hg.frame x (blocks_subset_forest (List.mem_append_right _ hk) hx)

/-- A tree that grows ahead, new trees being put last. -/
theorem Grows.ahead (hpos : pos ≤ K₁.length) :
    (L.forestLeaves st' l ((K₁ ++ c :: K₂ ++ new).drop pos)).Perm
      (v :: L.forestLeaves st l ((K₁ ++ c :: K₂).drop pos)) := by
  have hleft : L.forestLeaves st' l (K₁.drop pos) = L.forestLeaves st l (K₁.drop pos) :=
    List.flatMap_congr fun k hk => leaves_congr (hg.frame_left (List.mem_of_mem_drop hk))
  have hright : L.forestLeaves st' l K₂ = L.forestLeaves st l K₂ :=
    List.flatMap_congr fun k hk => leaves_congr (hg.frame_right hk)
  rw [List.append_assoc, List.drop_append_of_le_length hpos, List.drop_append_of_le_length hpos]
  simp only [forestLeaves_append, forestLeaves_cons, List.cons_append, hleft, hright]
  have hperm := hg.leaves_perm
  rw [forestLeaves_cons] at hperm
  have hswap : (L.leaves st' l c ++ (L.forestLeaves st l K₂ ++ L.forestLeaves st' l new)).Perm
      ((L.leaves st' l c ++ L.forestLeaves st' l new) ++ L.forestLeaves st l K₂) := by
    rw [List.append_assoc]
    exact List.perm_append_comm.append_left _
  exact ((hswap.trans (hperm.append_right _)).append_left _).trans List.perm_middle

/-- A tree that grows behind. -/
theorem Grows.behind (hpos : K₁.length < pos) :
    L.forestLeaves st' l ((K₁ ++ c :: K₂).drop pos) = L.forestLeaves st l ((K₁ ++ c :: K₂).drop pos) := by
  obtain ⟨d, rfl⟩ := Nat.exists_eq_add_of_lt hpos
  have hdrop : (K₁ ++ c :: K₂).drop (K₁.length + d + 1) = K₂.drop d := by
    rw [Nat.add_assoc, List.drop_append, List.drop_eq_nil_of_le (Nat.le_add_right _ _)]
    simp
  rw [hdrop]
  exact List.flatMap_congr fun k hk => leaves_congr (hg.frame_right (List.mem_of_mem_drop hk))

/-- **A walk outlives the growth of a kid's tree.** New trees may only come of a kid the walk has not started
    with; if it is inside the kid's tree, `hrec` says what happens there. -/
theorem Walk.grow (hw : L.Walk st (l + 1) b stack) (hkids : L.kids (st b) = K₁ ++ c :: K₂)
    (hkids' : L.kids (st' b) = K₁ ++ c :: K₂ ++ new) (hnew : new = [] ∨ c ∉ L.startedBlocks st stack)
    (hrec : ∀ stack₁, L.Walk st l c stack₁ → L.startedBlocks st stack₁ ⊆ L.startedBlocks st stack →
      L.Walk st' l c stack₁ ∧ L.Takes st st' v stack₁) :
    L.Walk st' (l + 1) b stack ∧ L.Takes st st' v stack := by
  -- a kid that was passed has not split
  have hpassed : ∀ {pos : Nat}, K₁.length < pos →
      (∀ x ∈ (L.kids (st b)).take pos, x ∈ L.startedBlocks st stack) → new = [] := by
    intro pos hpos hsub
    refine hnew.resolve_right fun hc => hc (hsub c ?_)
    obtain ⟨d, rfl⟩ := Nat.exists_eq_add_of_lt hpos
    rw [hkids, Nat.add_assoc, List.take_append]
    simp
  cases hw with
  | @inner _ _ pos hpos =>
      have hstack : ∀ (s : B → N), L.stackLeaves s [⟨b, l + 1, pos⟩] =
          L.forestLeaves s l ((L.kids (s b)).drop pos) := fun s => by simp [restLeaves]
      refine ⟨.inner (Nat.le_trans hpos (by rw [hkids, hkids']; simp)), ?_⟩
      rw [Takes, hstack, hstack, hkids, hkids']
      rcases Nat.lt_or_ge K₁.length pos with hlt | hge
      · obtain rfl := hpassed hlt fun x hx => by simp [startedBlocks, hx]
        rw [List.append_nil, hg.behind hlt]
        exact Or.inl (List.Perm.refl _)
      · exact Or.inr (hg.ahead hge)
  | @deeper _ _ k pos stack₁ hk hw₁ =>
      have hsub : ∀ x ∈ (L.kids (st b)).take (pos + 1),
          x ∈ L.startedBlocks st (stack₁ ++ [⟨b, l + 1, pos + 1⟩]) := fun x hx => by
        simp [startedBlocks, hx]
      have hstack : ∀ (s : B → N), L.stackLeaves s (stack₁ ++ [⟨b, l + 1, pos + 1⟩]) =
          L.stackLeaves s stack₁ ++ L.forestLeaves s l ((L.kids (s b)).drop (pos + 1)) := fun s => by
        simp [stackLeaves_append, restLeaves]
      have hk' : (L.kids (st' b))[pos]? = some k := by
        rw [hkids', ← hkids, List.getElem?_append_left (List.getElem?_eq_some_iff.mp hk).1]
        exact hk
      rw [Takes, hstack, hstack, hkids, hkids']
      rcases Nat.lt_trichotomy pos K₁.length with hlt | rfl | hgt
      · -- the walk is to the left of the kid
        have hmem : k ∈ K₁ := by
          rw [hkids, List.getElem?_append_left hlt] at hk
          exact List.mem_of_getElem? hk
        obtain ⟨hw', hleaves⟩ := hw₁.congr (hg.frame_left hmem)
        refine ⟨.deeper hk' hw', Or.inr ?_⟩
        rw [hleaves]
        exact ((hg.ahead hlt).append_left _).trans List.perm_middle
      · -- the walk is in the kid's tree
        obtain rfl : k = c := by simpa [hkids] using hk.symm
        obtain rfl := hpassed (Nat.lt_succ_self _) hsub
        obtain ⟨hw', htakes⟩ := hrec stack₁ hw₁ (by simp [startedBlocks_append])
        refine ⟨.deeper hk' hw', ?_⟩
        rw [List.append_nil, hg.behind (Nat.lt_succ_self _)]
        exact htakes.imp (·.append_right _) (·.append_right _)
      · -- the walk is to the right of the kid
        have hmem : k ∈ K₂ := by
          obtain ⟨d, rfl⟩ := Nat.exists_eq_add_of_lt hgt
          rw [hkids, List.getElem?_append_right (Nat.le_add_right _ _ |>.trans (Nat.le_succ _))] at hk
          have hd : K₁.length + d + 1 - K₁.length = d + 1 := by omega
          rw [hd, List.getElem?_cons_succ] at hk
          exact List.mem_of_getElem? hk
        obtain rfl := hpassed (Nat.lt_succ_of_lt hgt) hsub
        obtain ⟨hw', hleaves⟩ := hw₁.congr (hg.frame_right hmem)
        refine ⟨.deeper hk' hw', Or.inl ?_⟩
        rw [hleaves, List.append_nil, hg.behind (Nat.lt_succ_of_lt hgt)]

end Grow

/-- **An update of one kid's tree, with the node's own page rewritten last.** -/
theorem Update.grows {P : Nat → N → Prop} {alloc alloc' : Set B} {st₁ : B → N} {v : V} {K₁ K₂ new : List B}
    (hu : L.Update P alloc alloc' st st₁ l [c] (c :: new))
    (hperm : (L.forestLeaves st₁ l (c :: new)).Perm (v :: L.leaves st l c))
    (hf : L.Forest P st (l + 1) [b]) (halloc : ∀ x ∈ L.forestBlocks st (l + 1) [b], x ∈ alloc)
    (hkids : L.kids (st b) = K₁ ++ c :: K₂) (hst : ∀ x, x ≠ b → st' x = st₁ x) :
    L.Grows st st' l v K₁ c K₂ new ∧ ∀ x ∈ L.forestBlocks st₁ l (c :: new), st' x = st₁ x := by
  have hp : ([c] ++ (K₁ ++ K₂)).Perm (L.kids (st b)) := by
    rw [hkids, List.singleton_append]
    exact List.perm_middle.symm
  have hrest := hf.kids.2.1.subperm hp.subperm
  have hin : ∀ x ∈ L.forestBlocks st l (L.kids (st b)), x ∈ alloc := fun x hx =>
    halloc x (by simpa [blocks_succ] using Or.inr hx)
  have hsub : ∀ x ∈ L.forestBlocks st l (K₁ ++ K₂), x ∈ L.forestBlocks st l (L.kids (st b)) :=
    fun x hx => (forestBlocks_subperm ((List.sublist_append_right _ _).subperm.trans hp.subperm)).subset hx
  have hupd := (hu.append hrest fun x hx => hin x (hsub x hx)).perm_left hp.symm
  have htop : b ∉ L.forestBlocks st₁ l (c :: new ++ (K₁ ++ K₂)) :=
    hupd.top_notMem hf (halloc b (by simp [self_mem_blocks]))
  have hnew : ∀ x ∈ L.forestBlocks st₁ l (c :: new), st' x = st₁ x := fun x hx =>
    hst x fun he => htop (by rw [forestBlocks_append]; exact List.mem_append_left _ (he ▸ hx))
  refine ⟨⟨fun x hx => ?_, ?_⟩, hnew⟩
  · rw [hst x fun he => hf.kids.2.2 (hsub b (he ▸ hx)),
      hu.frame_rest hrest (fun y hy => hin y (hsub y hy)) x hx]
  · rw [forestLeaves_congr hnew]
    exact hperm

/-! ## Visits

A traversal that lets go of a node before it goes down to a kid has to come back to it after each of them. -/

/-- The nodes such a traversal comes to in the tree of level `l` at `b`, in order. -/
def visits (L : Layout B N V) (st : B → N) : Nat → B → List B
  | 0, b => [b]
  | l + 1, b => b :: (L.kids (st b)).flatMap fun k => visits L st l k ++ [b]

/-- Those it comes to from a frame on whose node it stands, until it leaves the node. -/
def restVisits (L : Layout B N V) (st : B → N) (f : Frame B) : List B :=
  match f.level with
  | 0 => []
  | l + 1 => ((L.kids (st f.block)).drop f.pos).flatMap fun k => L.visits st l k ++ [f.block]

theorem visits_eq : L.visits st l b = b :: L.restVisits st ⟨b, l, 0⟩ := by
  cases l with
  | zero => rfl
  | succ l => rfl

theorem restVisits_kid (h : (L.kids (st b))[pos]? = some c) :
    L.restVisits st ⟨b, l + 1, pos⟩ = L.visits st l c ++ b :: L.restVisits st ⟨b, l + 1, pos + 1⟩ := by
  obtain ⟨hlt, hget⟩ := List.getElem?_eq_some_iff.mp h
  simp only [restVisits]
  rw [List.drop_eq_getElem_cons hlt, hget, List.flatMap_cons, List.append_assoc, List.singleton_append]

theorem restVisits_exhausted (h : (L.kids (st b)).length ≤ pos) : L.restVisits st ⟨b, l + 1, pos⟩ = [] := by
  simp only [restVisits, List.drop_eq_nil_of_le h, List.flatMap_nil]

/-- Every node is visited. -/
theorem blocks_subset_visits : ∀ {l : Nat} {b : B}, L.blocks st l b ⊆ L.visits st l b
  | 0, _ => List.Subset.refl _
  | l + 1, b => by
      intro x hx
      rcases List.mem_cons.mp hx with rfl | hx
      · exact List.mem_cons_self
      · obtain ⟨k, hk, hx⟩ := List.mem_flatMap.mp hx
        refine List.mem_cons_of_mem _ (List.mem_flatMap.mpr ⟨k, hk, ?_⟩)
        exact List.mem_append_left _ (blocks_subset_visits hx)

/-- **A tree of `n` nodes takes `2 * n - 1` visits.** -/
theorem length_visits : ∀ {l : Nat} {b : B}, (L.visits st l b).length + 1 = 2 * (L.blocks st l b).length
  | 0, _ => rfl
  | l + 1, b => by
      -- a kid's visits and the return from it are two for each of its nodes
      have hkids : ∀ ks : List B, (ks.flatMap fun k => L.visits st l k ++ [b]).length =
          2 * (ks.flatMap (L.blocks st l)).length := by
        intro ks
        induction ks with
        | nil => rfl
        | cons k ks ih =>
            rw [List.flatMap_cons, List.flatMap_cons, List.length_append, List.length_append, ih, List.length_append,
              List.length_singleton, length_visits, Nat.mul_add]
      rw [visits, blocks, List.length_cons, List.length_cons, hkids]
      omega

end Layout
