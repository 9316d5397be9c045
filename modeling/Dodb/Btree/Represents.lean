import Dodb.Lib.SearchTree
import Dodb.Btree.FormatProofs
import Dodb.Btree.Tree

/-! What an assignment of pages means.

The tree a store holds is a `Shape` whose items are documents (`Item`), and the pages
are its stored form: one page for each cell and one for each chunk of a value kept
outside its leaf. `Cell.At` says that the pages of a cell are there, `Cell.Valid` what
the code keeps true of it. `Pages` collects what holds between two steps of the tree
code: a list of cells that is not yet (or no longer) a tree, the free list, and the
pages in neither (`extra`), which together are exactly the pages up to the high-water
mark. `Healthy` is the case where the cells are those of a search tree. -/
namespace Dodb
open Lib PageProg SearchTree

/-! ### Documents in a tree -/

/-- A value where it is kept: in its leaf, or in chunks on pages of their own. -/
inductive Stored where
  | inline (bytes : Bytes)
  | chain (chunks : List (PageId × Bytes))

namespace Stored

def bytes : Stored → Bytes
  | inline bytes => bytes
  | chain chunks => chunks.flatMap Prod.snd

def pages : Stored → List PageId
  | inline _ => []
  | chain chunks => chunks.map Prod.fst

def ref : Stored → ValueRef
  | inline bytes => .inline bytes
  | chain chunks => .overflow ((chunks.head?.map Prod.fst).getD 0) (chunks.flatMap Prod.snd).length

def Valid : Stored → Prop
  | inline bytes => bytes.length ≤ inlineValueLimit
  | chain chunks => chunks ≠ [] ∧ chunks.length ≤ maxOverflowPages ∧
      (chunks.flatMap Prod.snd).length ≤ maxValueSize ∧
        ∀ c ∈ chunks, c.2 ≠ [] ∧ c.2.length ≤ overflowDataSize

/-- A chain has a first page and a byte. -/
theorem Valid.head {chunks : List (PageId × Bytes)} (h : (chain chunks).Valid) :
    (some ((chunks.head?.map Prod.fst).getD 0) : Option PageId) = chunks.head?.map Prod.fst ∧
      (chunks.flatMap Prod.snd).length ≠ 0 := by
  obtain _ | ⟨c, rest⟩ := chunks
  · exact absurd rfl h.1
  · have := List.length_pos_iff.mpr (h.2.2.2 c List.mem_cons_self).1
    rw [List.flatMap_cons, List.length_append]
    exact ⟨rfl, by omega⟩

end Stored

/-- A document of the map, or the tombstone that a delete left. -/
structure Item where
  key : DocumentKey
  revision : Revision
  value : Option Stored

namespace Item

def sortKey (i : Item) : Bytes := i.key.encode

/-- The leaf entry that stores the item. -/
def entry (i : Item) : LeafEntry := ⟨i.key.encode, i.revision, i.value.map Stored.ref⟩

/-- What a reader of the item's key is told. -/
def state (i : Item) : RevisionState :=
  match i.value with
  | some value => .present value.bytes i.revision
  | none => .missing i.revision

def pages (i : Item) : List PageId := (i.value.map Stored.pages).getD []

def Valid (top : Lsn) (i : Item) : Prop := (i.revision ≠ 0 ∧ i.revision ≤ top) ∧ ∀ s ∈ i.value, s.Valid

@[simp] theorem entry_key (i : Item) : i.entry.key = i.sortKey := rfl

end Item

abbrev Leaf := SearchTree.Leaf Bytes PageId Item
abbrev Shape := SearchTree.Shape Bytes PageId Item
abbrev Cell := SearchTree.Cell Bytes PageId Item
abbrev Crumb := SearchTree.Crumb Bytes PageId Item
abbrev Ref := SearchTree.Ref Bytes PageId

def Leaf.entries (l : Leaf) : List LeafEntry := l.items.map Item.entry

def Ref.entry (r : Ref) : InternalEntry := ⟨r.low, r.id⟩

/-- The leftmost child and the separators of an internal page with the given children. -/
def leftmost (refs : List Ref) : PageId := (refs.head?.map SearchTree.Ref.id).getD 0

/-- The entries of an internal page with these children. -/
def separators (refs : List Ref) : List InternalEntry := refs.tail.map Ref.entry

/-! ### Cells on pages -/

abbrev View := PageId → Result PageData

/-- `p` reads as a page made by `f` from an LSN up to `top`. -/
def PageAt (top : Lsn) (v : View) (p : PageId) (f : Lsn → PageData) : Prop :=
  ∃ lsn ≤ top, v p = .ok (f lsn)

/-- The chunks of a value of `total` bytes, each page naming the next. -/
def ChainAt (top : Lsn) (v : View) (total : Nat) : List (PageId × Bytes) → Prop
  | [] => True
  | (p, chunk) :: rest =>
    PageAt top v p (.overflow · (rest.head?.map Prod.fst) total chunk) ∧ ChainAt top v total rest

/-- The pages of the value's chain hold its chunks. -/
def Stored.At (top : Lsn) (v : View) : Stored → Prop
  | inline _ => True
  | chain chunks => ChainAt top v (chunks.flatMap Prod.snd).length chunks

def Item.At (top : Lsn) (v : View) (i : Item) : Prop := ∀ s ∈ i.value, s.At top v

/-- The free list, each page naming the next. -/
def FreeAt (top : Lsn) (v : View) : List PageId → Prop
  | [] => True
  | p :: rest => PageAt top v p (.free · rest.head?) ∧ FreeAt top v rest

namespace Cell

def pages : Cell → List PageId
  | .leaf l => l.id :: l.items.flatMap Item.pages
  | .node id _ => [id]

/-- The page of the cell is stored as the cell says, and so are the values in it. -/
def At (top : Lsn) (v : View) : Cell → Prop
  | .leaf l => PageAt top v l.id (.leaf · l.next (Leaf.entries l)) ∧ ∀ i ∈ l.items, i.At top v
  | .node id refs => PageAt top v id (.internal · (leftmost refs) (separators refs))

/-- What is stored in the cell respects the limits of its page. -/
def Valid (top : Lsn) : Cell → Prop
  | .leaf l => leafFits (Leaf.entries l) = true ∧ ∀ i ∈ l.items, i.Valid top
  | .node _ refs => 2 ≤ refs.length ∧ internalFits (leftmost refs) (separators refs) = true

theorem Valid.branching {top : Lsn} {c : Cell} (h : Valid top c) : c.Branching := by
  cases c with
  | leaf l => exact True.intro
  | node id refs => exact h.1

end Cell

/-! ### Frames and bounds -/

section Frame
variable {top top' : Lsn} {v v' : View}

theorem PageAt.mono (h : top ≤ top') {p : PageId} {f : Lsn → PageData} (hat : PageAt top v p f) : PageAt top' v p f :=
  let ⟨lsn, hlsn, hv⟩ := hat
  ⟨lsn, hlsn.trans h, hv⟩

theorem PageAt.congr {p : PageId} {f : Lsn → PageData} (hv : v' p = v p) (h : PageAt top v p f) : PageAt top v' p f :=
  let ⟨lsn, hlsn, hp⟩ := h
  ⟨lsn, hlsn, hv.trans hp⟩

theorem ChainAt.mono (h : top ≤ top') {total : Nat} {chunks : List (PageId × Bytes)}
    (hat : ChainAt top v total chunks) : ChainAt top' v total chunks := by
  induction chunks with
  | nil => exact hat
  | cons c rest ih => exact ⟨hat.1.mono h, ih hat.2⟩

theorem ChainAt.congr {total : Nat} {chunks : List (PageId × Bytes)} (hv : ∀ p ∈ chunks.map Prod.fst, v' p = v p)
    (hat : ChainAt top v total chunks) : ChainAt top v' total chunks := by
  induction chunks with
  | nil => exact hat
  | cons c rest ih =>
    exact ⟨hat.1.congr (hv _ List.mem_cons_self), ih (fun p hp => hv p (List.mem_cons_of_mem _ hp)) hat.2⟩

theorem Stored.At.mono (h : top ≤ top') {s : Stored} (hat : s.At top v) : s.At top' v := by
  cases s with
  | inline bytes => exact hat
  | chain chunks => exact ChainAt.mono h hat

theorem Stored.At.congr {s : Stored} (hv : ∀ p ∈ s.pages, v' p = v p) (hat : s.At top v) : s.At top v' := by
  cases s with
  | inline bytes => exact hat
  | chain chunks => exact ChainAt.congr hv hat

theorem Item.At.mono (h : top ≤ top') {i : Item} (hat : i.At top v) : i.At top' v :=
  fun s hs => (hat s hs).mono h

theorem Item.At.congr {i : Item} (hv : ∀ p ∈ i.pages, v' p = v p) (hat : i.At top v) : i.At top v' :=
  fun s hs => (hat s hs).congr fun p hp => hv p (by
    rw [Item.pages, Option.mem_def.mp hs]
    exact hp)

theorem Item.Valid.mono (h : top ≤ top') {i : Item} (hi : i.Valid top) : i.Valid top' :=
  ⟨⟨hi.1.1, hi.1.2.trans h⟩, hi.2⟩

theorem FreeAt.mono (h : top ≤ top') {free : List PageId} (hat : FreeAt top v free) : FreeAt top' v free := by
  induction free with
  | nil => exact hat
  | cons p rest ih => exact ⟨hat.1.mono h, ih hat.2⟩

theorem FreeAt.congr {free : List PageId} (hv : ∀ p ∈ free, v' p = v p) (hat : FreeAt top v free) :
    FreeAt top v' free := by
  induction free with
  | nil => exact hat
  | cons p rest ih =>
    exact ⟨hat.1.congr (hv _ List.mem_cons_self), ih (fun p hp => hv p (List.mem_cons_of_mem _ hp)) hat.2⟩

theorem Cell.At.mono (h : top ≤ top') {c : Cell} (hat : c.At top v) : c.At top' v := by
  cases c with
  | leaf l => exact ⟨hat.1.mono h, fun i hi => (hat.2 i hi).mono h⟩
  | node id refs => exact PageAt.mono h hat

theorem Cell.At.congr {c : Cell} (hv : ∀ p ∈ c.pages, v' p = v p) (hat : c.At top v) : c.At top v' := by
  cases c with
  | leaf l =>
    refine ⟨hat.1.congr (hv _ List.mem_cons_self), fun i hi => (hat.2 i hi).congr fun p hp => ?_⟩
    exact hv p (List.mem_cons_of_mem _ (List.mem_flatMap.mpr ⟨i, hi, hp⟩))
  | node id refs => exact PageAt.congr (hv _ List.mem_cons_self) hat

theorem Cell.Valid.mono (h : top ≤ top') {c : Cell} (hc : c.Valid top) : c.Valid top' := by
  cases c with
  | leaf l => exact ⟨hc.1, fun i hi => (hc.2 i hi).mono h⟩
  | node id refs => exact hc

end Frame

/-! ### The space of pages -/

/-- `pages` are the data pages up to the high-water mark, each once. -/
def Space (highWater : PageId) (pages : List PageId) : Prop :=
  pages.Perm (List.range' firstDataPage (highWater + 1 - firstDataPage))

namespace Space
variable {highWater : PageId} {pages pages' : List PageId}

theorem perm (h : Space highWater pages) (hp : pages'.Perm pages) : Space highWater pages' := hp.trans h

theorem mem_iff (h : Space highWater pages) (p : PageId) : p ∈ pages ↔ firstDataPage ≤ p ∧ p ≤ highWater := by
  rw [List.Perm.mem_iff h, List.mem_range'_1]
  unfold firstDataPage
  lia

theorem nodup (h : Space highWater pages) : pages.Nodup := (List.Perm.nodup_iff h).mpr List.nodup_range'

theorem length_le (h : Space highWater pages) : pages.length ≤ highWater := by
  rw [List.Perm.length_eq h, List.length_range']
  unfold firstDataPage
  lia

theorem grow (h : Space highWater pages) (h1 : 1 ≤ highWater) : Space (highWater + 1) ((highWater + 1) :: pages) := by
  unfold Space firstDataPage at *
  have hn : highWater + 1 + 1 - 2 = (highWater + 1 - 2) + 1 := by lia
  rw [hn, List.range'_concat]
  have : 2 + 1 * (highWater + 1 - 2) = highWater + 1 := by lia
  rw [this]
  exact (List.Perm.cons _ h).trans (List.perm_append_singleton _ _).symm

end Space

/-! ### The pages between two steps -/

abbrev TreeStage := Stage PageId PageData Alloc Error

/-- Every page up to the high water is in a cell, on the free list or in `extra`, once, and is stored as that says. -/
structure Pages (top : Lsn) (s : TreeStage) (cells : List Cell) (free extra : List PageId) : Prop where
  cellsAt : ∀ c ∈ cells, Cell.At top s.view c
  valid : ∀ c ∈ cells, Cell.Valid top c
  freeHead : s.state.freeListHead = free.head?
  freeAt : FreeAt top s.view free
  space : Space s.state.highWaterPageId (cells.flatMap Cell.pages ++ (free ++ extra))
  highWater : 1 ≤ s.state.highWaterPageId
  dirty : ∀ p ∈ s.dirty.keys, firstDataPage ≤ p ∧ p ≤ s.state.highWaterPageId

namespace Pages
variable {top : Lsn} {s : TreeStage} {cells : List Cell} {free extra : List PageId}

theorem mono {top' : Lsn} (h : Pages top s cells free extra) (hle : top ≤ top') : Pages top' s cells free extra :=
  {h with
    cellsAt := fun c hc => (h.cellsAt c hc).mono hle
    valid := fun c hc => (h.valid c hc).mono hle
    freeAt := h.freeAt.mono hle}

/-- The cells and the other pages may be listed in any order. -/
theorem perm (h : Pages top s cells free extra) {cells' : List Cell} {extra' : List PageId}
    (hc : cells'.Perm cells) (he : extra'.Perm extra) : Pages top s cells' free extra' :=
  {h with
    cellsAt := fun c hm => h.cellsAt c (hc.mem_iff.mp hm)
    valid := fun c hm => h.valid c (hc.mem_iff.mp hm)
    space := h.space.perm ((hc.flatMap_right _).append (he.append_left _))}

/-- A cell that is taken out leaves its pages over. -/
theorem release {c : Cell} (h : Pages top s (c :: cells) free extra) :
    Pages top s cells free (Cell.pages c ++ extra) :=
  {h with
    cellsAt := fun c hm => h.cellsAt c (List.mem_cons_of_mem _ hm)
    valid := fun c hm => h.valid c (List.mem_cons_of_mem _ hm)
    space := h.space.perm (by
      rw [List.perm_iff_count]
      intro p
      simp only [List.flatMap_cons, List.count_append]
      omega)}

/-- A cell that is there may be counted in, with its pages. -/
theorem adopt {c : Cell} (h : Pages top s cells free (Cell.pages c ++ extra)) (hat : Cell.At top s.view c)
    (hvalid : Cell.Valid top c) : Pages top s (c :: cells) free extra :=
  {h with
    cellsAt := fun c' hm => (List.mem_cons.mp hm).elim (fun heq => heq ▸ hat) (h.cellsAt c')
    valid := fun c' hm => (List.mem_cons.mp hm).elim (fun heq => heq ▸ hvalid) (h.valid c')
    space := h.space.perm (by
      rw [List.perm_iff_count]
      intro p
      simp only [List.flatMap_cons, List.count_append]
      omega)}

theorem mem_range (h : Pages top s cells free extra) {p : PageId}
    (hp : p ∈ cells.flatMap Cell.pages ∨ p ∈ free ∨ p ∈ extra) : firstDataPage ≤ p ∧ p ≤ s.state.highWaterPageId := by
  rw [← h.space.mem_iff]
  simpa using hp

theorem cell_range (h : Pages top s cells free extra) {c : Cell} (hc : c ∈ cells) {p : PageId}
    (hp : p ∈ Cell.pages c) : firstDataPage ≤ p ∧ p ≤ s.state.highWaterPageId :=
  h.mem_range (.inl (List.mem_flatMap.mpr ⟨c, hc, hp⟩))

theorem extra_disjoint (h : Pages top s cells free extra) {p : PageId} (hp : p ∈ extra) :
    p ∉ cells.flatMap Cell.pages ∧ p ∉ free := by
  have hnodup := h.space.nodup
  rw [List.nodup_append, List.nodup_append] at hnodup
  obtain ⟨_, ⟨_, _, hfree⟩, hcells⟩ := hnodup
  exact ⟨fun hc => hcells p hc p (List.mem_append_right _ hp) rfl, fun hf => hfree p hf p hp rfl⟩

theorem extra_nodup (h : Pages top s cells free extra) : extra.Nodup :=
  (List.nodup_append.mp (List.nodup_append.mp h.space.nodup).2.1).2.1

/-- Writing a page that is in no cell and not free changes nothing else. -/
theorem write (h : Pages top s cells free extra) {p : PageId} (hp : p ∈ extra) (page : PageData) :
    Pages top (s.write p page) cells free extra := by
  obtain ⟨hcells, hfree⟩ := h.extra_disjoint hp
  have hne : ∀ q, q ≠ p → (s.write p page).view q = s.view q := fun q hq => s.view_write_ne page hq
  exact {h with
    cellsAt := fun c hc => (h.cellsAt c hc).congr fun q hq => hne q fun heq =>
      hcells (List.mem_flatMap.mpr ⟨c, hc, heq ▸ hq⟩)
    freeAt := h.freeAt.congr fun q hq => hne q fun heq => hfree (heq ▸ hq)
    dirty := fun q hq => by
      rw [Stage.state_write]
      rw [Stage.dirty_write, SortedMap.mem_keys_insert] at hq
      rcases hq with rfl | hq
      · exact h.mem_range (.inr (.inr hp))
      · exact h.dirty q hq}

/-- The root and the counters are no pages. -/
theorem setState (h : Pages top s cells free extra) {a : Alloc}
    (hfree : a.freeListHead = s.state.freeListHead) (hhigh : a.highWaterPageId = s.state.highWaterPageId) :
    Pages top {s with state := a} cells free extra where
  cellsAt := h.cellsAt
  valid := h.valid
  freeHead := hfree.trans h.freeHead
  freeAt := h.freeAt
  space := by
    show Space a.highWaterPageId _
    rw [hhigh]
    exact h.space
  highWater := by
    show 1 ≤ a.highWaterPageId
    rw [hhigh]
    exact h.highWater
  dirty := by
    show ∀ p ∈ s.dirty.keys, firstDataPage ≤ p ∧ p ≤ a.highWaterPageId
    rw [hhigh]
    exact h.dirty

end Pages

/-- The pages of a search tree. -/
structure Healthy (top : Lsn) (s : TreeStage) (t : Shape) (free extra : List PageId) : Prop where
  pages : Pages top s t.cells free extra
  root : s.state.rootPageId = t.id
  low : t.low = []
  order : InOrder Item.sortKey t.leaves
  linked : Linked none t.leaves

namespace Healthy
variable {top : Lsn} {s : TreeStage} {t : Shape} {free extra : List PageId}

theorem mono {top' : Lsn} (h : Healthy top s t free extra) (hle : top ≤ top') : Healthy top' s t free extra :=
  {h with pages := h.pages.mono hle}

theorem branching (h : Healthy top s t free extra) : t.Branching := fun c hc => (h.pages.valid c hc).branching

/-- A tree of one leaf, all of whose values are its own. -/
theorem single {v : View} {a : Alloc} {items : List Item} (hroot : a.rootPageId = firstDataPage)
    (hhigh : a.highWaterPageId = firstDataPage) (hfree : a.freeListHead = none)
    (hpage : PageAt top v firstDataPage (.leaf · none (items.map Item.entry)))
    (hfits : leafFits (items.map Item.entry) = true) (hvalid : ∀ i ∈ items, i.Valid top)
    (hinline : ∀ i ∈ items, ∀ s ∈ i.value, ∃ bytes, s = .inline bytes) :
    Healthy top ⟨v, .empty, a⟩ (.leaf ⟨[], firstDataPage, none, items⟩) [] [] where
  pages :=
    { cellsAt := fun c hc => by
        rw [Shape.cells_leaf, List.mem_singleton] at hc
        rw [hc]
        refine ⟨hpage, fun i hi s hs => ?_⟩
        obtain ⟨bytes, rfl⟩ := hinline i hi s hs
        exact True.intro
      valid := fun c hc => by
        rw [Shape.cells_leaf, List.mem_singleton] at hc
        rw [hc]
        exact ⟨hfits, hvalid⟩
      freeHead := hfree
      freeAt := True.intro
      space := by
        have hnone : items.flatMap Item.pages = [] := by
          rw [List.flatMap_eq_nil_iff]
          intro i hi
          rw [Item.pages]
          cases hv : i.value with
          | none => rfl
          | some s =>
            obtain ⟨bytes, rfl⟩ := hinline i hi s hv
            rfl
        show Space a.highWaterPageId _
        rw [hhigh, Shape.cells_leaf, List.flatMap_singleton, Cell.pages, hnone]
        exact List.Perm.refl _
      highWater := by
        show 1 ≤ a.highWaterPageId
        rw [hhigh]
        decide
      dirty := fun p hp => (nomatch hp) }
  root := hroot
  low := by rw [Shape.low_leaf]
  order := by
    rw [Shape.leaves_leaf]
    refine ⟨List.pairwise_singleton _ _, fun l hl => ?_⟩
    rw [List.mem_singleton.mp hl]
    refine ⟨?_, fun i _ => nil_le _⟩
    have hsorted := ((leafFits_iff _).mp hfits).2.1
    rw [List.map_map] at hsorted
    exact List.pairwise_map.mp hsorted
  linked := by
    rw [Shape.leaves_leaf]
    exact ⟨rfl, True.intro⟩

end Healthy

end Dodb
