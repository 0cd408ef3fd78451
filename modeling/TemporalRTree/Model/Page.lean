import TemporalRTree.Model.Cube
import TemporalRTree.Model.Split

/-!
# `Model.Page` — index tuples and pages

The page API is `bufpage.c`; the page helpers are `temporal_rtree_page.c` and the page-local functions of
`temporal_rtree_insert.c`. The line pointer array of an index page has no unused entries (tuples are
added at the end or shifted in, and deletion compacts), so a page is the list of its tuples in offset order
and offset `o` is position `o - 1`.

A `DataPage` carries the proof that its tuples fit in the block, so an overfull page cannot be built: the
only way to put a tuple on a page is `pageAddItem`, which checks.
-/

namespace TemporalRTree

/-! ## Index tuples -/

abbrev BlockNumber := Nat
abbrev OffsetNumber := Nat

def invalidBlockNumber : BlockNumber := 4294967295
def invalidOffsetNumber : OffsetNumber := 0
def firstOffsetNumber : OffsetNumber := 1

/-- `ItemPointerData`: a heap TID on a leaf tuple, a child block on an inner tuple. -/
structure ItemPointerData where
  blkno : BlockNumber
  offnum : OffsetNumber
  deriving DecidableEq, Repr

/-- An index tuple of a one-column index; `none` is a NULL key. -/
structure IndexTuple where
  tTid : ItemPointerData
  key : Option NDBOX
  deriving DecidableEq

/-- `MAXALIGN`. -/
def maxalign (n : Nat) : Nat := (n + 7) / 8 * 8

/-- `IndexTupleSize`: header and key, maxaligned (`index_form_tuple`); a NULL key adds the null bitmap. -/
def indexTupleSize (itup : IndexTuple) : Nat :=
  match itup.key with
  | some cube => maxalign (8 + cube.varsize)
  | none => maxalign (8 + 4)

/-- `rtree_index_tuple_box`; `none` is the C function returning false on a NULL key. -/
def rtreeIndexTupleBox (itup : IndexTuple) : Option RTreeTemporalBox := itup.key.map rtreeCubeToBox

/-- `rtree_form_tuple`. -/
def rtreeFormTuple (box : RTreeTemporalBox) (tid : ItemPointerData) : IndexTuple :=
  { tTid := tid, key := some (rtreeBoxToCube box) }

/-- The item pointer of a downlink to `blkno`. -/
def childTid (blkno : BlockNumber) : ItemPointerData := { blkno := blkno, offnum := firstOffsetNumber }

/-! ## Pages -/

/-- `RTreePageOpaqueData.flags`: `TRTREE_PAGE_LEAF`, `TRTREE_PAGE_ROOT`, `TRTREE_PAGE_META`. -/
structure PageFlags where
  leaf : Bool := false
  root : Bool := false
  metapage : Bool := false
  deriving DecidableEq, Repr

/-- `RTreePageOpaqueData`, the special space of a data page. -/
structure RTreePageOpaqueData where
  rightlink : BlockNumber
  flags : PageFlags
  level : Nat
  nsn : Nat
  deriving DecidableEq, Repr

/-- `RTreeMetaPageData`, the special space of block 0. -/
structure RTreeMetaPageData where
  magic : Nat
  root : BlockNumber
  rootLevel : Nat
  flags : PageFlags
  deriving DecidableEq, Repr

/-- `TRTREE_META_MAGIC`. -/
def trtreeMetaMagic : Nat := 0x54525452

/-- `pd_special` of a page with either special space: `BLCKSZ - 16`. -/
def pdSpecial : Nat := 8192 - 16

/-- `pd_lower`: the page header and one line pointer per tuple. -/
def pdLower (items : List IndexTuple) : Nat := 24 + 4 * items.length

/-- The bytes between `pd_upper` and `pd_special`. -/
def tupleBytes (items : List IndexTuple) : Nat := (items.map (fun t => maxalign (indexTupleSize t))).sum

/-- A leaf or inner page. `fits` is `pd_lower ≤ pd_upper`. -/
structure DataPage where
  special : RTreePageOpaqueData
  items : List IndexTuple
  fits : pdLower items + tupleBytes items ≤ pdSpecial
  deriving DecidableEq

/-- No tuples fit on every page. -/
theorem fits_nil : pdLower [] + tupleBytes [] ≤ pdSpecial := by decide

/-- The contents of one block. `zero` is a page that was allocated and never initialised. -/
inductive Page where
  | zero
  | metapage (m : RTreeMetaPageData)
  | data (p : DataPage)
  deriving DecidableEq

/-! ### `bufpage.c` -/

/-- `PageGetFreeSpace`: the room left after one more line pointer. -/
def pageGetFreeSpace (page : DataPage) : Nat :=
  let space := pdSpecial - tupleBytes page.items - pdLower page.items
  if space < 4 then 0 else space - 4

theorem tupleBytes_append (l₁ l₂ : List IndexTuple) :
    tupleBytes (l₁ ++ l₂) = tupleBytes l₁ + tupleBytes l₂ := by
  simp [tupleBytes]

theorem tupleBytes_insertIdx {l : List IndexTuple} {i : Nat} (itup : IndexTuple) (h : i ≤ l.length) :
    tupleBytes (l.insertIdx i itup) = tupleBytes l + maxalign (indexTupleSize itup) := by
  have hp : (l.insertIdx i itup).Perm (itup :: l) := List.perm_insertIdx itup l h
  rw [tupleBytes, (hp.map _).sum_eq, List.map_cons, List.sum_cons, Nat.add_comm]
  rfl

theorem tupleBytes_eraseIdx_le (l : List IndexTuple) (i : Nat) :
    tupleBytes (l.eraseIdx i) ≤ tupleBytes l :=
  ((List.eraseIdx_sublist l i).map _).sum_le_sum (fun _ _ => Nat.zero_le _)

/-- `PageAddItem` without overwriting: at the end for `InvalidOffsetNumber`, else shifted in at the given
    offset. `none` is the return value `InvalidOffsetNumber`. -/
def pageAddItem (page : DataPage) (itup : IndexTuple) (offnum : OffsetNumber) : Option DataPage :=
  let pos := if offnum = invalidOffsetNumber then page.items.length else offnum - 1
  if h : pos ≤ page.items.length ∧
      pdLower page.items + 4 + (tupleBytes page.items + maxalign (indexTupleSize itup)) ≤ pdSpecial then
    some
      { page with
        items := page.items.insertIdx pos itup
        fits := by
          rw [tupleBytes_insertIdx itup h.1, pdLower, List.length_insertIdx_of_le_length h.1]
          have := h.2
          simp only [pdLower] at this
          omega }
  else none

/-- `PageIndexTupleDelete`. -/
def pageIndexTupleDelete (page : DataPage) (offnum : OffsetNumber) : DataPage :=
  { page with
    items := page.items.eraseIdx (offnum - 1)
    fits := by
      have h1 := tupleBytes_eraseIdx_le page.items (offnum - 1)
      have h2 := (List.eraseIdx_sublist page.items (offnum - 1)).length_le
      have h3 := page.fits
      simp only [pdLower] at h3 ⊢
      omega }

/-! ### `temporal_rtree_page.c` -/

/-- `rtree_init_metapage`. -/
def rtreeInitMetapage (rootblk : BlockNumber) (rootlevel : Nat) : RTreeMetaPageData :=
  { magic := trtreeMetaMagic, root := rootblk, rootLevel := rootlevel, flags := { metapage := true } }

/-- `rtree_init_datapage`. -/
def rtreeInitDatapage (flags : PageFlags) (level : Nat) : DataPage :=
  { special := { rightlink := invalidBlockNumber, flags := flags, level := level, nsn := 0 }
    items := []
    fits := by decide }

/-- One turn of the loop of `rtree_page_mbr`; the accumulator is `none` while `first` is true. -/
def mbrStep (mbr : Option RTreeTemporalBox) (itup : IndexTuple) : Option RTreeTemporalBox :=
  match rtreeIndexTupleBox itup with
  | none => mbr
  | some box =>
      match mbr with
      | none => some box
      | some m => some (trUnion m box)

/-- `rtree_page_mbr`. -/
def rtreePageMbr (page : DataPage) : RTreeTemporalBox :=
  (page.items.foldl mbrStep none).getD emptyBox

/-! ### Page-local functions of `temporal_rtree_insert.c` -/

/-- The box `rtree_page_tuple_box` gives a tuple: all zero for a NULL key. -/
def rtreePageTupleBox (itup : IndexTuple) : RTreeTemporalBox :=
  (rtreeIndexTupleBox itup).getD
    { lowerUs := 0, upperUs := 0, attrLo := 0, attrHi := 0, dims := 0, flags := {} }

/-- `rtree_replace_tuple`; `none` is its `elog(ERROR)`, which leaves the page without the old tuple. -/
def rtreeReplaceTuple (page : DataPage) (offnum : OffsetNumber) (itup : IndexTuple) : Option DataPage :=
  pageAddItem (pageIndexTupleDelete page offnum) itup offnum

/-- `DBL_MAX`. -/
def dblMax : ℚ := (2 ^ 53 - 1) * 2 ^ 971

/-- The penalty of `choose_subtree_insert`: rewarded when child and new box are both current or both
    history. -/
def subtreePenalty (childBox newbox : RTreeTemporalBox) : ℚ :=
  let penalty := trPenaltyNormalized Binary64.round childBox newbox
  if childBox.flags.upperInf == newbox.flags.upperInf then
    Binary64.round (penalty * Binary64.round (8 / 10))
  else Binary64.round (penalty * Binary64.round (12 / 10))

/-- One turn of the loop of `choose_subtree_insert`: the best penalty and child so far. -/
def chooseStep (newbox : RTreeTemporalBox) (best : ℚ × BlockNumber) (itup : IndexTuple) :
    ℚ × BlockNumber :=
  match rtreeIndexTupleBox itup with
  | none => best
  | some childBox =>
      if subtreePenalty childBox newbox < best.1 then (subtreePenalty childBox newbox, itup.tTid.blkno)
      else best

/-- `choose_subtree_insert`. -/
def chooseSubtreeInsert (page : DataPage) (newbox : RTreeTemporalBox) : BlockNumber :=
  let best := (page.items.foldl (chooseStep newbox) (dblMax, invalidBlockNumber)).2
  if best = invalidBlockNumber then
    match page.items with
    | [] => best
    | first :: _ => first.tTid.blkno
  else best

end TemporalRTree
